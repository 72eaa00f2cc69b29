import ClobApi.Api.Envelope
import ClobApi.Engine.Ranking
import ClobApi.Guarantees.Recovery

/-!
# What the public feed shows of a book

Three channels tell about the book of a market: its own acceptances, its own
fills, and the cancellations of all markets.  Whoever handles their envelopes in
ascending order, as the feed's documentation asks, knows every resting order,
what is left of it and its place in the queue.
-/

namespace ClobApi

open Foundation

def marketChannels (marketId : String) : List String :=
  ["book.l3." ++ marketId, "trades." ++ marketId, "cancels"]

def marketFeed (marketId : String) (log : List SequencedEvent) :
    List WsEnvelope :=
  (log.flatMap WsEnvelope.fromSequenced).filter fun envelope =>
    envelope.channel ∈ marketChannels marketId

/-- What is left of an order after an event, if it rests on. -/
def reviseOrder (se : SequencedEvent) (order : Order) : Option Order :=
  (viewStep order.orderId (some order) se).filter fun order => !order.isClosed

def followEvent (side : Side) (queue : List Order) (envelope : WsEnvelope) :
    List Order :=
  match envelope.payload with
  | .orderAccepted order =>
      if order.side = side then order.queueIn queue else queue
  | event => queue.filterMap
      (reviseOrder ⟨envelope.sequenceId, envelope.timestampMs, event⟩)

def followFeed (side : Side) (feed : List WsEnvelope) : List Order :=
  feed.foldl (followEvent side) []

/-! ## The envelopes of one event -/

/-- The event is told on the channels of the market. -/
def Event.Concerns (marketId : String) : Event → Prop
  | .orderAccepted order => order.marketId.value = marketId
  | .fill trade => trade.marketId.value = marketId
  | .orderCancelled .. => True
  | _ => False

instance (marketId : String) :
    DecidablePred (Event.Concerns marketId) := fun event => by
  cases event <;> unfold Event.Concerns <;> infer_instance

section Envelopes

variable {marketId : String} {se : SequencedEvent}

theorem marketFeed_append (log : List SequencedEvent) :
    marketFeed marketId (log ++ [se]) =
      marketFeed marketId log ++ marketFeed marketId [se] := by
  simp [marketFeed]

theorem kind_ne_cancels {kind : String} {c : Char}
    (hkind : kind.toList.head? = some c) (h : c ≠ 'c') (a : String) :
    kind ++ a ≠ "cancels" := by
  have hne : kind ++ a ≠ "cancels" ++ "" :=
    WsEnvelope.channel_ne hkind rfl h a ""
  rwa [String.append_empty] at hne

theorem book_mem_marketChannels {a : String} :
    "book.l3." ++ a ∈ marketChannels marketId ↔ a = marketId := by
  have htrades : "book.l3." ++ a ≠ "trades." ++ marketId :=
    WsEnvelope.channel_ne rfl rfl (by decide) _ _
  have hcancels : "book.l3." ++ a ≠ "cancels" :=
    kind_ne_cancels rfl (by decide) a
  simp [marketChannels, htrades, hcancels]

theorem trades_mem_marketChannels {a : String} :
    "trades." ++ a ∈ marketChannels marketId ↔ a = marketId := by
  have hbook : "trades." ++ a ≠ "book.l3." ++ marketId :=
    WsEnvelope.channel_ne rfl rfl (by decide) _ _
  have hcancels : "trades." ++ a ≠ "cancels" :=
    kind_ne_cancels rfl (by decide) a
  simp [marketChannels, hbook, hcancels]

theorem not_mem_marketChannels {kind : String} {c : Char}
    (hkind : kind.toList.head? = some c) (hother : c ∉ ['b', 't', 'c'])
    (a : String) : kind ++ a ∉ marketChannels marketId := by
  simp only [List.mem_cons, List.not_mem_nil, or_false, not_or] at hother
  have hbook : kind ++ a ≠ "book.l3." ++ marketId :=
    WsEnvelope.channel_ne hkind rfl hother.1 _ _
  have htrades : kind ++ a ≠ "trades." ++ marketId :=
    WsEnvelope.channel_ne hkind rfl hother.2.1 _ _
  have hcancels := kind_ne_cancels hkind hother.2.2 a
  simp [marketChannels, hbook, htrades, hcancels]

theorem marketFeed_singleton (marketId : String) (se : SequencedEvent) :
    ∃ channel eventType, marketFeed marketId [se] =
      if se.event.Concerns marketId then
        [⟨channel, se.seqId, eventType, se.event, se.timestampMs⟩]
      else [] := by
  have horders : ∀ a, "orders." ++ a ∉ marketChannels marketId :=
    not_mem_marketChannels rfl (by decide)
  have hmarket : ∀ a, "market." ++ a ∉ marketChannels marketId :=
    not_mem_marketChannels rfl (by decide)
  have hcancels : "cancels" ∈ marketChannels marketId := by
    simp [marketChannels]
  unfold marketFeed
  rw [List.flatMap_singleton]
  unfold WsEnvelope.fromSequenced
  cases se.event with
  | orderAccepted order =>
      refine ⟨"book.l3." ++ order.marketId.value, "order_accepted", ?_⟩
      simp [List.filter_cons, book_mem_marketChannels, horders, Event.Concerns]
  | fill fill =>
      refine ⟨"trades." ++ fill.marketId.value, "fill", ?_⟩
      have hmaker : (if fill.makerTraderId ≠ fill.takerTraderId then
          [(⟨"orders." ++ fill.makerTraderId, se.seqId, "fill", .fill fill,
            se.timestampMs⟩ : WsEnvelope)]
        else []).filter (fun envelope =>
          envelope.channel ∈ marketChannels marketId) = [] := by
        split <;> simp [horders]
      simp only [List.filter_append, hmaker]
      simp [List.filter_cons, trades_mem_marketChannels, horders,
        Event.Concerns]
  | orderCancelled id hash reason =>
      exact ⟨"cancels", "order_cancelled", by simp [hcancels, Event.Concerns]⟩
  | orderRejected => exact ⟨"", "", by simp [horders, Event.Concerns]⟩
  | marketPaused => exact ⟨"", "", by simp [hmarket, Event.Concerns]⟩
  | marketResumed => exact ⟨"", "", by simp [hmarket, Event.Concerns]⟩

end Envelopes

/-! ## One event of a legal log -/

section Revise

variable {log : List SequencedEvent} {event : Event} {id : OrderId}
  {order order' : Order} {timestampMs : UInt64} {seqId : Nat}

theorem reviseOrder_eq_some {se : SequencedEvent} :
    reviseOrder se order = some order' ↔
      viewStep order.orderId (some order) se = some order' ∧
        order'.isClosed = false := by
  simp [reviseOrder, Option.filter_eq_some_iff]

theorem viewStep_terms_eq {se : SequencedEvent}
    (hevent : se.event.accepts = none)
    (h : viewStep id (some order) se = some order') :
    order'.terms = order.terms := by
  obtain ⟨new, hnew, -⟩ | ⟨old, hold, hterms⟩ := viewStep_terms h
  · rw [hevent] at hnew
    cases hnew
  · obtain rfl := Option.some.inj hold
    exact hterms

theorem LegalEvent.viewStep_closed (h : LegalEvent True log event)
    (hview : orderInLog log id = some order) (hclosed : order.isClosed = true) :
    viewStep id (some order) ⟨seqId, timestampMs, event⟩ = some order := by
  have hdead : ∀ {o : Order}, orderInLog log id = some o →
      o.isClosed ≠ false := by
    intro o ho hlive
    obtain rfl := Option.some.inj (hview.symm.trans ho)
    rw [hclosed] at hlive
    cases hlive
  cases h with
  | @orderAccepted new fresh =>
      have hid : id ≠ new.orderId := by
        rintro rfl
        rw [hview] at fresh
        cases fresh
      simp [viewStep, hid]
  | @fill fill taker maker taker_mem maker_mem legal =>
      have htaker : id ≠ fill.takerOrderId := by
        rintro rfl
        exact hdead taker_mem (legal.live trivial).1
      have hmaker : id ≠ fill.makerOrderId := by
        rintro rfl
        exact hdead maker_mem (legal.live trivial).2
      simp [viewStep, htaker, hmaker]
  | @orderCancelled cancelled order reason order_mem live =>
      have hid : id ≠ cancelled := by
        rintro rfl
        exact hdead order_mem (live trivial)
      simp [viewStep, hid]
  | marketPaused | marketResumed => rfl

theorem leftOpen_append (hlegal : LegalLog True log)
    (h : LegalEvent True log event) (hevent : event.accepts = none) :
    leftOpen (log ++ [⟨seqId, timestampMs, event⟩]) id = some order' ↔
      ∃ order, leftOpen log id = some order ∧
        reviseOrder ⟨seqId, timestampMs, event⟩ order = some order' := by
  rw [leftOpen_eq_some, orderInLog_append]
  cases hview : orderInLog log id with
  | none =>
      have hnone : viewStep id none ⟨seqId, timestampMs, event⟩ = none := by
        cases event <;> simp_all [viewStep, Event.accepts]
      simp [hnone, leftOpen, hview]
  | some order =>
      have hkey := (hlegal.loggedOrder hview).key
      simp only [leftOpen_eq_some, hview, Option.some.injEq,
        reviseOrder_eq_some]
      constructor
      · rintro ⟨hstep, hopen⟩
        refine ⟨order, ⟨rfl, ?_⟩, hkey ▸ hstep, hopen⟩
        by_contra hclosed
        rw [Bool.not_eq_false] at hclosed
        have hsame : viewStep id (some order) ⟨seqId, timestampMs, event⟩ =
            some order := h.viewStep_closed hview hclosed
        obtain rfl := Option.some.inj (hsame.symm.trans hstep)
        rw [hclosed] at hopen
        cases hopen
      · rintro ⟨order, ⟨rfl, -⟩, hstep, hopen⟩
        exact ⟨hkey ▸ hstep, hopen⟩

end Revise

/-! ## The queue of a follower -/

structure FollowsSide (marketId : String) (side : Side)
    (log : List SequencedEvent) (queue : List Order) : Prop where
  sorted : queue.Pairwise (Order.Precedes side)
  mem (order : Order) : order ∈ queue ↔
    leftOpen log order.orderId = some order ∧
      order.marketId.value = marketId ∧ order.side = side

section Follow

variable {marketId : String} {side : Side} {log : List SequencedEvent}
  {event : Event} {queue : List Order} {timestampMs : UInt64}

theorem map_rank_filterMap {f : Order → Option Order}
    (h : ∀ order order', f order = some order' → order'.terms = order.terms)
    (queue : List Order) :
    ((queue.filterMap f).map Order.rank).Sublist (queue.map Order.rank) := by
  induction queue with
  | nil => exact .slnil
  | cons order queue ih =>
      rw [List.map_cons]
      cases hf : f order with
      | none =>
          rw [List.filterMap_cons_none hf]
          exact ih.cons _
      | some order' =>
          have hterms := h order order' hf
          have hrank : order'.rank = order.rank := by
            have hprice : order'.priceTicks = order.priceTicks := by
              simpa using congrArg Order.priceTicks hterms
            have hcreated : order'.createdSequence = order.createdSequence := by
              simpa using congrArg Order.createdSequence hterms
            exact Prod.ext hprice hcreated
          rw [List.filterMap_cons_some hf, List.map_cons, hrank]
          exact ih.cons_cons _

theorem sameKeys_of_terms {order order' : Order}
    (h : order'.terms = order.terms) : order'.orderId = order.orderId ∧
      order'.marketId = order.marketId ∧ order'.side = order.side :=
  ⟨by simpa using congrArg Order.orderId h,
    by simpa using congrArg Order.marketId h,
    by simpa using congrArg Order.side h⟩

theorem FollowsSide.revise (h : FollowsSide marketId side log queue)
    (hlegal : LegalLog True log) (hlast : LegalEvent True log event)
    (hevent : event.accepts = none) :
    FollowsSide marketId side
      (log ++ [⟨log.length + 1, timestampMs, event⟩])
      (queue.filterMap (reviseOrder ⟨log.length + 1, timestampMs, event⟩)) := by
  have hterms : ∀ order order',
      reviseOrder ⟨log.length + 1, timestampMs, event⟩ order = some order' →
        order'.terms = order.terms := fun order order' hrevise =>
    viewStep_terms_eq hevent (reviseOrder_eq_some.mp hrevise).1
  refine ⟨pairwise_precedes_of_rank (map_rank_filterMap hterms queue) h.sorted,
    fun order' => ?_⟩
  rw [List.mem_filterMap, leftOpen_append hlegal hlast hevent]
  refine (exists_congr fun order => ?_).trans exists_and_right
  rw [and_right_comm]
  refine and_congr_left fun hrevise => ?_
  obtain ⟨hid, hmarket, hside⟩ := sameKeys_of_terms (hterms _ _ hrevise)
  rw [h.mem, hid, hmarket, hside]

theorem leftOpen_accept {new : Order}
    (hlast : LegalEvent True log (.orderAccepted new)) (seqId : Nat)
    (id : OrderId) :
    leftOpen (log ++ [⟨seqId, timestampMs, .orderAccepted new⟩]) id =
      if id = new.orderId then some new else leftOpen log id := by
  unfold leftOpen
  rw [orderInLog_append]
  cases hlast with
  | orderAccepted fresh status unfilled positive created =>
      have hopen : new.isClosed = false := by
        rw [Order.isClosed, status]
        rfl
      unfold viewStep
      dsimp only
      split
      · simp [hopen]
      · rfl

theorem FollowsSide.accept (h : FollowsSide marketId side log queue)
    (hlegal : LegalLog True log) {new : Order}
    (hlast : LegalEvent True log (.orderAccepted new)) :
    FollowsSide marketId side
      (log ++ [⟨log.length + 1, timestampMs, .orderAccepted new⟩])
      (if new.marketId.value = marketId ∧ new.side = side then
        new.queueIn queue
      else queue) := by
  have hunknown : leftOpen log new.orderId = none := by
    cases hlast with
    | orderAccepted fresh => simp [leftOpen, fresh]
  have hcreated : new.createdSequence = log.length + 1 := by
    cases hlast with
    | orderAccepted _ _ _ _ created => exact created
  have hlater : ∀ older ∈ queue,
      older.createdSequence < new.createdSequence := by
    intro older hmem
    have hview := (leftOpen_eq_some.mp ((h.mem older).mp hmem).1).1
    have hle := (hlegal.loggedOrder hview).created_le
    omega
  have hmem : ∀ order, (leftOpen
        (log ++ [⟨log.length + 1, timestampMs, .orderAccepted new⟩])
          order.orderId = some order ∧
        order.marketId.value = marketId ∧ order.side = side) ↔
      (order = new ∧ new.marketId.value = marketId ∧ new.side = side) ∨
        order ∈ queue := by
    intro order
    rw [leftOpen_accept hlast, h.mem]
    split
    · next hid =>
        rw [hid, hunknown, Option.some.injEq]
        constructor
        · rintro ⟨rfl, hkeys⟩
          exact .inl ⟨rfl, hkeys⟩
        · rintro (⟨rfl, hkeys⟩ | ⟨hnone, -⟩)
          · exact ⟨rfl, hkeys⟩
          · cases hnone
    · next hid =>
        refine (or_iff_right ?_).symm
        rintro ⟨rfl, -⟩
        exact hid rfl
  split
  · next hkeys =>
      obtain ⟨hmarket, rfl⟩ := hkeys
      refine ⟨pairwise_precedes_queueIn h.sorted hlater, fun order => ?_⟩
      rw [hmem, Order.queueIn, List.mem_orderedInsert]
      simp [hmarket]
  · next hkeys =>
      refine ⟨h.sorted, fun order => ?_⟩
      rw [hmem]
      exact (or_iff_right fun hnew => hkeys hnew.2).symm

theorem reviseOrder_of_not_concerns (hlast : LegalEvent True log event)
    (hevent : event.accepts = none) (hnot : ¬ event.Concerns marketId)
    {order : Order} (hopen : leftOpen log order.orderId = some order)
    (hmarket : order.marketId.value = marketId) (seqId : Nat) :
    reviseOrder ⟨seqId, timestampMs, event⟩ order = some order := by
  obtain ⟨hview, hlive⟩ := leftOpen_eq_some.mp hopen
  refine reviseOrder_eq_some.mpr ⟨?_, hlive⟩
  cases hlast with
  | orderAccepted => cases hevent
  | @fill fill taker maker taker_mem maker_mem legal =>
      have hother : ∀ {id : OrderId} {o : Order}, orderInLog log id = some o →
          o.marketId = fill.marketId → order.orderId ≠ id := by
        rintro id o ho hfill rfl
        obtain rfl := Option.some.inj (hview.symm.trans ho)
        exact hnot ((congrArg MarketId.value hfill.symm).trans hmarket)
      simp [viewStep, hother taker_mem legal.takerMarket,
        hother maker_mem legal.makerMarket]
  | orderCancelled => exact absurd trivial hnot
  | marketPaused | marketResumed => rfl

theorem FollowsSide.step (h : FollowsSide marketId side log queue)
    (hlegal : LegalLog True log) (hlast : LegalEvent True log event) :
    FollowsSide marketId side
      (log ++ [⟨log.length + 1, timestampMs, event⟩])
      ((marketFeed marketId [⟨log.length + 1, timestampMs, event⟩]).foldl
        (followEvent side) queue) := by
  obtain ⟨channel, eventType, hfeed⟩ := marketFeed_singleton marketId
    ⟨log.length + 1, timestampMs, event⟩
  rw [hfeed]
  cases hevent : event.accepts with
  | some new =>
      obtain rfl : event = .orderAccepted new := by
        cases event <;> simp_all [Event.accepts]
      have haccept : FollowsSide marketId side
          (log ++ [⟨log.length + 1, timestampMs, .orderAccepted new⟩]) _ :=
        h.accept hlegal hlast
      by_cases hconcerns : (Event.orderAccepted new).Concerns marketId
      · have hmarket : new.marketId.value = marketId := hconcerns
        rw [if_pos hconcerns]
        simpa [followEvent, hmarket] using haccept
      · have hmarket : new.marketId.value ≠ marketId := hconcerns
        rw [if_neg hconcerns]
        simpa [hmarket] using haccept
  | none =>
      have hrevise : FollowsSide marketId side
          (log ++ [⟨log.length + 1, timestampMs, event⟩]) _ :=
        h.revise hlegal hlast hevent
      by_cases hconcerns : event.Concerns marketId
      · rw [if_pos hconcerns]
        cases event with
        | orderAccepted => cases hevent
        | _ => exact hrevise
      · rw [if_neg hconcerns]
        have hsame : queue.filterMap
            (reviseOrder ⟨log.length + 1, timestampMs, event⟩) = queue := by
          rw [List.filterMap_congr fun order hmem => ?_, List.filterMap_some]
          obtain ⟨hopen, hmarket, -⟩ := (h.mem order).mp hmem
          exact reviseOrder_of_not_concerns hlast hevent hconcerns hopen
            hmarket _
        rwa [hsame] at hrevise

/-- Whoever follows the feed of a legal log knows what it leaves open. -/
theorem LegalLog.followsSide (h : LegalLog True log) (marketId : String)
    (side : Side) : FollowsSide marketId side log
      (followFeed side (marketFeed marketId log)) := by
  induction h with
  | nil => exact ⟨.nil, by simp [followFeed, marketFeed, leftOpen, orderInLog]⟩
  | append timestampMs init last ih =>
      unfold followFeed at ih ⊢
      rw [marketFeed_append, List.foldl_append]
      exact ih.step init last

end Follow

/-! ## Received envelopes -/

theorem marketFeed_numbers (marketId : String) (log : List SequencedEvent) :
    ((marketFeed marketId log).map WsEnvelope.sequenceId).Sublist
      (log.map SequencedEvent.seqId) := by
  induction log using List.reverseRecOn with
  | nil => exact .slnil
  | append_singleton log se ih =>
      obtain ⟨channel, eventType, hfeed⟩ := marketFeed_singleton marketId se
      rw [marketFeed_append, List.map_append, List.map_append, hfeed]
      refine ih.append ?_
      split
      · exact List.Sublist.refl _
      · exact List.nil_sublist _

theorem LegalLog.marketFeed_ascending {strict : Prop}
    {log : List SequencedEvent} (h : LegalLog strict log) (marketId : String) :
    (marketFeed marketId log).Pairwise fun a b =>
      a.sequenceId < b.sequenceId := by
  refine List.pairwise_map.mp
    (List.Pairwise.sublist (marketFeed_numbers marketId log) ?_)
  rw [h.seqIds]
  exact List.pairwise_lt_range'

/-! ## The live book -/

section Live

variable {e : Engine} {marketId : String} {side : Side} {queue : List Order}

theorem map_core_ranking (hcompleted : e.Inv True False noOrder)
    (htrading : e.Inv False True noOrder)
    (hqueue : FollowsSide marketId side e.log queue) :
    ((bookAt e.books marketId).ranking side).map Order.core =
      queue.map Order.core := by
  have hvalid := hcompleted.bookAt_valid marketId
  have hrank : ∀ orders : List Order,
      ((orders.map Order.core).map Order.rank) = orders.map Order.rank := by
    intro orders
    rw [List.map_map]
    rfl
  have hsorted : ∀ {orders : List Order},
      orders.Pairwise (Order.Precedes side) →
        (orders.map Order.core).Pairwise (Order.Precedes side) := by
    intro orders h
    refine pairwise_precedes_of_rank ?_ h
    rw [hrank]
  refine eq_of_pairwise_precedes (hsorted (hvalid.ranking_sorted side))
    (hsorted hqueue.sorted) fun core => ?_
  rw [List.mem_map, List.mem_map]
  constructor
  · rintro ⟨live, hlive, rfl⟩
    obtain ⟨hget, hside, hopen⟩ :=
      hvalid.resting_iff.mp (hvalid.mem_ranking.mp hlive)
    rw [get_bookAt] at hget
    obtain ⟨logged, hview, hmatches⟩ := htrading.sync.stored hget
    have hcore := hmatches.core trivial
    obtain ⟨hid, -, hside'⟩ :=
      sameKeys_of_terms (Order.terms_eq_of_facts hmatches.facts)
    refine ⟨logged, (hqueue.mem logged).mpr ⟨leftOpen_eq_some.mpr ⟨?_, ?_⟩,
      hmatches.logged_market, hside'.trans hside⟩, hcore⟩
    · rwa [hid]
    · rw [Order.isClosed_eq_of_core hcore, hopen]
  · rintro ⟨logged, hlogged, rfl⟩
    obtain ⟨hleft, hmarket, hside⟩ := (hqueue.mem logged).mp hlogged
    obtain ⟨hview, hopen⟩ := leftOpen_eq_some.mp hleft
    obtain ⟨live, hlive, hcore⟩ :=
      hcompleted.sync.covered trivial hview hopen fun hpending => hpending
    obtain ⟨hid, -, hside'⟩ := sameKeys_of_terms
      (Order.terms_eq_of_facts (Order.facts_eq_of_core hcore))
    refine ⟨live, hvalid.mem_ranking.mpr (hvalid.resting_iff.mpr
      ⟨?_, hside'.trans hside, ?_⟩), hcore⟩
    · rw [get_bookAt, hid, ← hmarket]
      exact hlive
    · rw [Order.isClosed_eq_of_core hcore, hopen]

end Live

/--
After completed calls, forced cancellations apart, whoever has received each
envelope of a market's acceptances and fills and of all cancellations and
handles them in ascending order has both sides of the market's book: the same
orders in the order in which they are to be matched, each up to the number of
its last update.
-/
theorem public_feed_shows_book {crypto : Crypto} {ops : List Op} {e : Engine}
    (h : Run (CompletedStep crypto) .new ops e)
    (htrading : ∀ op ∈ ops, op.isTrading = true) (marketId : String)
    {received : List WsEnvelope}
    (hascending : received.Pairwise fun a b => a.sequenceId < b.sequenceId)
    (hreceived : ∀ envelope, envelope ∈ received ↔
      (∃ se ∈ e.log, envelope ∈ WsEnvelope.fromSequenced se) ∧
        envelope.channel ∈ marketChannels marketId) (side : Side) :
    ((bookAt e.books marketId).ranking side).map Order.core =
      (followFeed side received).map Order.core := by
  have hinv := TradingStep.run_inv
    (Step.run_trading (h.mono fun _ _ _ hstep => hstep.1) htrading)
  have hfeed : received = marketFeed marketId e.log := by
    refine eq_of_pairwise_lt_of_mem_iff WsEnvelope.sequenceId hascending
      (hinv.legal.marketFeed_ascending marketId) fun envelope => ?_
    rw [hreceived, marketFeed, List.mem_filter, List.mem_flatMap,
      decide_eq_true_eq]
  rw [hfeed]
  exact map_core_ranking (CompletedStep.run_inv h) hinv
    (hinv.legal.followsSide marketId side)

theorem public_feed_shows_book_traded :
    ((bookAt (Sample.after Sample.traded).books "BTC-USD").ranking .sell).map
      Order.core = (followFeed .sell
        (marketFeed "BTC-USD" Sample.tradedLog)).map Order.core := by
  have hlegal := (BasicStep.run_inv Sample.traded_run).1.legal
  refine public_feed_shows_book (BasicStep.run_completed Sample.traded_run)
    (by decide) "BTC-USD" ?_ (fun envelope => ?_) .sell
  · rw [← Sample.traded_log.1]
    exact hlegal.marketFeed_ascending "BTC-USD"
  · rw [Sample.traded_log.1, marketFeed, List.mem_filter, List.mem_flatMap,
      decide_eq_true_eq]

end ClobApi
