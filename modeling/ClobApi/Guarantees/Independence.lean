import ClobApi.Engine.BooksPresent
import ClobApi.Engine.Intake
import ClobApi.Engine.Renumber
import ClobApi.Guarantees.Priority
import ClobApi.Startup

/-!
# Markets are independent

The markets share the sequencer, the log and every table.  Still the operations
that succeed in one market, run alone on a fresh engine, succeed again and give
that market the same book and the same fills, under other sequence numbers.
-/

namespace ClobApi

open Foundation

/-! ## The operations of one market -/

/-- The operation was neither refused nor without effect. -/
def Reply.succeeded : Reply → Bool
  | .added => true
  | .order (.ok result) => !result.isDuplicate
  | .cancel (.ok result) => !result.wasAlreadyClosed
  | .admin (.ok _) => true
  | .restored (.ok _) => true
  | _ => false

namespace Engine

def concerns (marketId : String) (e : Engine) : Op → Bool
  | .addMarket config => config.id.value == marketId
  | .processOrder signed _ => signed.marketId.value == marketId
  | .processCancel orderId _ _ =>
      e.orderMarketIndex.get? orderId == some marketId
  | .pauseMarket market _ _ => market == marketId
  | .resumeMarket market _ _ => market == marketId
  | .cancelAllOrders market _ => market == marketId
  | .restoreFromEvents _ _ => true

def worksIn (crypto : Crypto) (marketId : String) (e : Engine) (op : Op) :
    Bool :=
  (e.apply crypto op).2.succeeded && e.concerns marketId op

def operationsIn (crypto : Crypto) (marketId : String) :
    Engine → List Op → List Op :=
  kept (fun e op => (e.apply crypto op).1) (worksIn crypto marketId)

end Engine

def SucceedingStep (crypto : Crypto) (e : Engine) (op : Op)
    (e' : Engine) : Prop :=
  BasicStep crypto e op e' ∧ (e.apply crypto op).2.succeeded = true

/-! ## Markets under their own ids -/

def Engine.MarketsKeyed (e : Engine) : Prop :=
  ∀ marketId market, e.markets.get? marketId = some market →
    market.id.value = marketId

theorem BasicStep.run_keyed {crypto : Crypto} {ops : List Op} {e : Engine}
    (h : Run (BasicStep crypto) .new ops e) : e.MarketsKeyed := by
  have hkeyed : e.MarketsSatisfy fun _ => True :=
    Step.run_marketsSatisfy (h.mono fun _ _ _ hstep => hstep.1)
      (fun _ _ _ => trivial) fun _ _ => trivial
  exact fun marketId market hget => (hkeyed _ _ hget).1

theorem Engine.MarketsKeyed.findMarket {e : Engine} (h : e.MarketsKeyed)
    (marketId : String) : e.findMarket marketId = e.markets.get? marketId := by
  have hlisted : ∀ market, market ∈ e.listMarkets ↔
      ∃ id, e.markets.get? id = some market := by
    intro market
    unfold Engine.listMarkets
    rw [List.mem_insertionSort, HashMap.mem_values]
  cases hfind : e.findMarket marketId with
  | some market =>
      obtain ⟨id, hget⟩ := (hlisted market).mp (List.mem_of_find?_eq_some hfind)
      rw [← Engine.findMarket_id hfind, h id market hget, hget]
  | none =>
      cases hget : e.markets.get? marketId with
      | none => rfl
      | some market =>
          have hmem := (hlisted market).mpr ⟨marketId, hget⟩
          have hother := List.find?_eq_none.mp hfind market hmem
          exact absurd (h marketId market hget) (by simpa using hother)

/-! ## Following one market of a session -/

/-- The tables of `e'` refuse nothing that those of `e` let through. -/
structure TablesWithin (marketId : String) (e e' : Engine) : Prop where
  nonces : ∀ traderId, e'.state.lastNonce traderId ≤ e.state.lastNonce traderId
  unseen : ∀ key, e.sequencer.idempotency.get? key = none →
    e'.sequencer.idempotency.get? key = none
  index : ∀ id, e.orderMarketIndex.get? id = some marketId →
    e'.orderMarketIndex.get? id = some marketId
  accepted : ∀ order ∈ accepted e'.log, ∃ original ∈ accepted e.log,
    original.orderId = order.orderId

/--
What `e` knows of the market is what `e'` knows of it, under other sequence
numbers.
-/
structure Follows (marketId : String) (ρ : Nat → Nat) (e e' : Engine) :
    Prop where
  renumbers : Renumbers ρ e'.sequencer.nextSeqId e.sequencer.nextSeqId
  market : e'.markets.get? marketId = e.markets.get? marketId
  book : e.books.get? marketId =
    (e'.books.get? marketId).map (OrderBook.renumber ρ)
  fills : fillsOf marketId e.log =
    (fillsOf marketId e'.log).map (Fill.renumber ρ)
  tables : TablesWithin marketId e e'
  bookNumbers : ∀ book, e'.books.get? marketId = some book →
    NumbersBelow OrderBook.renumber e'.sequencer.nextSeqId book
  fillNumbers : NumbersBelow (fun ρ => List.map (Fill.renumber ρ))
    e'.sequencer.nextSeqId (fillsOf marketId e'.log)

/-- The two engines count in step from here on. -/
def Aligned (ρ : Nat → Nat) (e e' : Engine) : Prop :=
  ∀ count, ρ (e'.sequencer.nextSeqId + count) =
    e.sequencer.nextSeqId + count

section Follows

variable {marketId : String} {ρ : Nat → Nat} {e e' : Engine}

theorem Follows.new (marketId : String) : Follows marketId id .new .new where
  renumbers := ⟨strictMono_id, fun _ hk => hk⟩
  market := rfl
  book := rfl
  fills := rfl
  tables := ⟨fun _ => UInt64.le_refl _, fun _ h => h, fun _ h => h,
    fun order h => ⟨order, h, rfl⟩⟩
  bookNumbers := nofun
  fillNumbers := fun _ _ _ => rfl

theorem Follows.align (h : Follows marketId ρ e e') :
    ∃ ρ', Follows marketId ρ' e e' ∧ Aligned ρ' e e' := by
  refine ⟨renumberFrom ρ e'.sequencer.nextSeqId e.sequencer.nextSeqId,
    { h with
      renumbers := h.renumbers.renumberFrom
      book := ?_
      fills := ?_ },
    renumberFrom_add⟩
  · rw [h.book]
    cases hbook : e'.books.get? marketId with
    | none => rfl
    | some book =>
        exact congrArg some (h.bookNumbers book hbook _ _ fun k hk =>
          (renumberFrom_lt hk).symm)
  · rw [h.fills]
    exact h.fillNumbers _ _ fun k hk => (renumberFrom_lt hk).symm

theorem Follows.exists_book (h : Follows marketId ρ e e') {book : OrderBook}
    (hbook : e.books.get? marketId = some book) :
    ∃ book', e'.books.get? marketId = some book' ∧ book'.renumber ρ = book := by
  rw [h.book] at hbook
  exact Option.map_eq_some_iff.mp hbook

/-! ## The operations that are kept -/

theorem appendEvent_quiet {event : Event} (hquiet : event.Quiet)
    (wall : Nat → UInt64) (marketId : String) (e : Engine) :
    fillsOf marketId (e.appendEvent wall event).log = fillsOf marketId e.log ∧
      accepted (e.appendEvent wall event).log = accepted e.log := by
  have hwrites : Writes wall e (e.appendEvent wall event) [event] := ⟨rfl, rfl⟩
  constructor
  · rw [hwrites.fillsOf, List.filterMap_cons_none hquiet.fill?]
    exact List.append_nil _
  · rw [hwrites.accepted, List.filterMap_cons_none hquiet.accepts]
    exact List.append_nil _

theorem Follows.appendEvent (h : Follows marketId ρ e e')
    (haligned : Aligned ρ e e') {event : Event} (hquiet : event.Quiet)
    (wall : Nat → UInt64) :
    Follows marketId ρ (e.appendEvent wall event)
      (e'.appendEvent wall event) := by
  obtain ⟨hfills, haccepted⟩ := appendEvent_quiet hquiet wall marketId e
  obtain ⟨hfills', haccepted'⟩ := appendEvent_quiet hquiet wall marketId e'
  have htables := h.tables
  refine ⟨h.renumbers.add haligned 1, h.market, h.book, ?_,
    ⟨htables.nonces, htables.unseen, htables.index, ?_⟩, fun book hbook => ?_,
    ?_⟩
  · rw [hfills, hfills', h.fills]
  · rw [haccepted, haccepted']
    exact htables.accepted
  · exact (h.bookNumbers book hbook).mono (Nat.le_succ _)
  · rw [hfills']
    exact h.fillNumbers.mono (Nat.le_succ _)

theorem Follows.addMarket (h : Follows marketId ρ e e') (config : MarketConfig)
    (hid : config.id.value = marketId) :
    Follows marketId ρ (e.addMarket config) (e'.addMarket config) := by
  subst hid
  have hbook : ∀ e : Engine, (e.addMarket config).books.get? config.id.value =
      some ((e.books.get? config.id.value).getD .new) :=
    fun e => HashMap.get?_insert_self _ _ _
  have hmarket : ∀ e : Engine,
      (e.addMarket config).markets.get? config.id.value = some config :=
    fun e => HashMap.get?_insert_self _ _ _
  obtain ⟨hnonces, hunseen, hindex, haccepted⟩ := h.tables
  refine ⟨h.renumbers, (hmarket e').trans (hmarket e).symm, ?_, h.fills,
    ⟨hnonces, hunseen, hindex, haccepted⟩, fun book hget => ?_,
    h.fillNumbers⟩
  · rw [hbook, hbook, h.book]
    cases e'.books.get? config.id.value <;> rfl
  · rw [hbook] at hget
    obtain rfl := Option.some.inj hget
    cases hold : e'.books.get? config.id.value with
    | none => exact fun _ _ _ => rfl
    | some book => exact h.bookNumbers book hold

theorem Follows.cancel (h : Follows marketId ρ e e')
    (haligned : Aligned ρ e e') {orderId : OrderId} {traderId : String}
    {book : OrderBook} {order : Order}
    (hcancels : e.Cancels orderId traderId marketId book order)
    (wall : Nat → UInt64) :
    ∃ book' order', e'.Cancels orderId traderId marketId book' order' ∧
      Follows marketId ρ (e.afterCancel orderId marketId book order wall)
        (e'.afterCancel orderId marketId book' order' wall) := by
  obtain ⟨hindex, hlisted, hstored, htrader, hactive⟩ := hcancels
  obtain ⟨book', hlisted', rfl⟩ := h.exists_book hlisted
  rw [OrderBook.get_renumber] at hstored
  obtain ⟨order', hstored', rfl⟩ := Option.map_eq_some_iff.mp hstored
  refine ⟨book', order',
    ⟨h.tables.index _ hindex, hlisted', hstored', htrader, hactive⟩, ?_⟩
  have hlogged := h.appendEvent haligned
    (.cancelled orderId order'.orderHash .traderRequest) wall
  have hbook : ∀ (e : Engine) book order,
      (e.afterCancel orderId marketId book order wall).books.get? marketId =
        some (book.cancel orderId).1 :=
    fun _ _ _ => HashMap.get?_insert_self _ _ _
  refine ⟨hlogged.renumbers, hlogged.market, ?_, hlogged.fills,
    ⟨hlogged.tables.nonces, hlogged.tables.unseen, hlogged.tables.index,
      hlogged.tables.accepted⟩, fun book hget => ?_, hlogged.fillNumbers⟩
  · rw [hbook, hbook, OrderBook.cancel_renumber]
    rfl
  · rw [hbook] at hget
    obtain rfl := Option.some.inj hget
    exact (hlogged.bookNumbers book' hlisted').cancel orderId

variable {crypto : Crypto} {signed : SignedOrder} {env : CallEnv}

theorem Follows.submits (h : Follows signed.marketId.value ρ e e')
    (hsubmits : Engine.Submits crypto e signed env) :
    Engine.Submits crypto e' signed env where
  intake := by
    obtain ⟨hcomplete, hunexpired, hauthentic, htrades⟩ :=
      Engine.checkIntake_ok_iff.mp hsubmits.intake
    refine Engine.checkIntake_ok_iff.mpr
      ⟨hcomplete, hunexpired, hauthentic, ?_⟩
    unfold Engine.Trades
    rw [h.market]
    exact htrades
  unseen := h.tables.unseen _ hsubmits.unseen
  nonce := UInt64.lt_of_le_of_lt (h.tables.nonces _) hsubmits.nonce

theorem TablesWithin.accept (h : TablesWithin marketId e e')
    {st st' : MatchState} {e₁ e₁' : Engine}
    (hexecuted : e.Executed crypto signed env st e₁)
    (hexecuted' : e'.Executed crypto signed env st' e₁') :
    TablesWithin marketId e₁ e₁' where
  nonces := by
    intro traderId
    rw [hexecuted.lastNonce, hexecuted'.lastNonce]
    split
    · exact UInt64.le_refl _
    · exact h.nonces traderId
  unseen := by
    intro key
    rw [hexecuted.unseen_iff, hexecuted'.unseen_iff]
    exact And.imp_right (h.unseen key)
  index := by
    intro id
    rw [hexecuted.index, hexecuted'.index]
    split
    · exact fun hid => hid
    · exact h.index id
  accepted := by
    intro order horder
    rw [hexecuted'.accepted] at horder
    rw [hexecuted.accepted]
    rcases List.mem_append.mp horder with hold | hnew
    · obtain ⟨original, hmem, hid⟩ := h.accepted order hold
      exact ⟨original, List.mem_append_left _ hmem, hid⟩
    · obtain rfl := List.mem_singleton.mp hnew
      exact ⟨_, List.mem_append_right _ (.head _), rfl⟩

theorem filter_isIn_renumber (marketId : String) (ρ : Nat → Nat)
    (fills : List Fill) :
    (fills.map (Fill.renumber ρ)).filter (Fill.isIn marketId) =
      (fills.filter (Fill.isIn marketId)).map (Fill.renumber ρ) :=
  List.filter_map

theorem Engine.Executed.fillsOf {st : MatchState} {e₁ : Engine}
    (h : e.Executed crypto signed env st e₁) (marketId : String) :
    fillsOf marketId e₁.log = ClobApi.fillsOf marketId e.log ++
      st.fills.filter (Fill.isIn marketId) := by
  rw [h.writes.fillsOf, List.filterMap_cons, filterMap_fill_events]
  rfl

theorem Follows.submit (h : Follows signed.marketId.value ρ e e')
    (haligned : Aligned ρ e e') (hsubmits : Engine.Submits crypto e signed env)
    {book : OrderBook}
    (hbook : e.books.get? signed.marketId.value = some book) :
    (∃ result, (e'.processOrder crypto signed env).2 = .ok result ∧
        result.isDuplicate = false) ∧
      Follows signed.marketId.value ρ (e.processOrder crypto signed env).1
        (e'.processOrder crypto signed env).1 := by
  obtain ⟨book', hbook', rfl⟩ := h.exists_book hbook
  obtain ⟨st', hst'⟩ : ∃ st', matchOrder book'
      (Engine.buildOrder crypto signed env e'.sequencer.peekNextSeqId)
      e'.sequencer.peekNextSeqId env.nowMs = st' := ⟨_, rfl⟩
  have hnext : ρ e'.sequencer.peekNextSeqId = e.sequencer.peekNextSeqId :=
    haligned 0
  have hst : matchOrder (book'.renumber ρ)
      (Engine.buildOrder crypto signed env e.sequencer.peekNextSeqId)
      e.sequencer.peekNextSeqId env.nowMs = st'.renumber ρ := by
    rw [← hnext, ← buildOrder_renumber, matchOrder_renumber, hst']
  obtain ⟨e₁, hdone, hexecuted⟩ := hsubmits.completes hbook rfl hst
  obtain ⟨e₁', hdone', hexecuted'⟩ :=
    (h.submits hsubmits).completes hbook' rfl hst'
  rw [hdone, hdone']
  refine ⟨⟨_, rfl, rfl⟩, ?_⟩
  have hcount : (st'.renumber ρ).events.length = st'.events.length := by
    simp only [MatchState.events, MatchState.renumber, List.length_append,
      List.length_map]
    rfl
  have hnumbers : NumbersBelow MatchState.renumber
      e₁'.sequencer.nextSeqId st' := by
    rw [hexecuted'.writes.next, ← hst']
    exact ((h.bookNumbers book' hbook').matchOrder
      (buildOrder_numbers crypto signed env _) env.nowMs).mono (by simp)
  refine ⟨?_, ?_, ?_, ?_, h.tables.accept hexecuted hexecuted', ?_, ?_⟩
  · rw [hexecuted.writes.next, hexecuted'.writes.next, List.length_cons,
      List.length_cons, hcount]
    exact h.renumbers.add haligned _
  · rw [hexecuted.tables.markets, hexecuted'.tables.markets]
    exact h.market
  · rw [hexecuted.books, hexecuted'.books, if_pos rfl, if_pos rfl,
      residualBook_renumber]
    rfl
  · rw [hexecuted.fillsOf, hexecuted'.fillsOf, h.fills, List.map_append,
      ← filter_isIn_renumber]
    rfl
  · intro book hget
    rw [hexecuted'.books, if_pos rfl] at hget
    obtain rfl := Option.some.inj hget
    exact hnumbers.residualBook
  · intro ρ₁ ρ₂ hagree
    have hsame := congrArg MatchState.fills (hnumbers ρ₁ ρ₂ hagree)
    have hold := h.fillNumbers ρ₁ ρ₂ fun k hk => hagree k (by
      rw [hexecuted'.writes.next]
      omega)
    simp only [MatchState.renumber] at hsame
    simp only [hexecuted'.fillsOf, List.map_append, ← filter_isIn_renumber,
      hsame, hold]

/-! ## The operations that are left out -/

/-- From `e` to `e₁` the market is left alone. -/
structure Apart (marketId : String) (e e₁ : Engine) : Prop where
  next : e.sequencer.nextSeqId ≤ e₁.sequencer.nextSeqId
  market : e₁.markets.get? marketId = e.markets.get? marketId
  book : e₁.books.get? marketId = e.books.get? marketId
  fills : fillsOf marketId e₁.log = fillsOf marketId e.log
  tables : TablesWithin marketId e₁ e

theorem TablesWithin.refl (marketId : String) (e : Engine) :
    TablesWithin marketId e e :=
  ⟨fun _ => UInt64.le_refl _, fun _ h => h, fun _ h => h,
    fun order h => ⟨order, h, rfl⟩⟩

theorem TablesWithin.trans {e₁ : Engine} (h₁ : TablesWithin marketId e₁ e)
    (h : TablesWithin marketId e e') : TablesWithin marketId e₁ e' where
  nonces := fun traderId =>
    UInt64.le_trans (h.nonces traderId) (h₁.nonces traderId)
  unseen := fun key hkey => h.unseen key (h₁.unseen key hkey)
  index := fun id hid => h.index id (h₁.index id hid)
  accepted := by
    intro order horder
    obtain ⟨original, hmem, hid⟩ := h.accepted order horder
    obtain ⟨first, hfirst, hid'⟩ := h₁.accepted original hmem
    exact ⟨first, hfirst, hid'.trans hid⟩

theorem Apart.refl (marketId : String) (e : Engine) : Apart marketId e e :=
  ⟨Nat.le_refl _, rfl, rfl, rfl, .refl marketId e⟩

theorem Apart.trans {e₁ e₂ : Engine} (h : Apart marketId e e₁)
    (h' : Apart marketId e₁ e₂) : Apart marketId e e₂ where
  next := Nat.le_trans h.next h'.next
  market := h'.market.trans h.market
  book := h'.book.trans h.book
  fills := h'.fills.trans h.fills
  tables := h'.tables.trans h.tables

theorem Follows.skip (h : Follows marketId ρ e e') {e₁ : Engine}
    (hapart : Apart marketId e e₁) : Follows marketId ρ e₁ e' where
  renumbers := h.renumbers.later hapart.next
  market := h.market.trans hapart.market.symm
  book := hapart.book.trans h.book
  fills := hapart.fills.trans h.fills
  tables := hapart.tables.trans h.tables
  bookNumbers := h.bookNumbers
  fillNumbers := h.fillNumbers

theorem apart_appendEvent (marketId : String) (e : Engine) {event : Event}
    (hquiet : event.Quiet) (wall : Nat → UInt64) :
    Apart marketId e (e.appendEvent wall event) := by
  obtain ⟨hfills, haccepted⟩ := appendEvent_quiet hquiet wall marketId e
  refine ⟨Nat.le_succ _, rfl, rfl, hfills, fun _ => UInt64.le_refl _,
    fun _ hkey => hkey, fun _ hid => hid, ?_⟩
  rw [haccepted]
  exact fun order horder => ⟨order, horder, rfl⟩

theorem apart_addMarket (e : Engine) (config : MarketConfig)
    (hother : config.id.value ≠ marketId) :
    Apart marketId e (e.addMarket config) := by
  have htables := TablesWithin.refl marketId e
  refine ⟨Nat.le_refl _, ?_, ?_, rfl, htables.nonces, htables.unseen,
    htables.index, htables.accepted⟩
  · exact (HashMap.get?_insert _ _ _ _).trans (if_neg hother.symm)
  · exact (HashMap.get?_insert _ _ _ _).trans (if_neg hother.symm)

theorem apart_afterCancel (e : Engine) (orderId : OrderId) {other : String}
    (hother : other ≠ marketId) (book : OrderBook) (order : Order)
    (wall : Nat → UInt64) :
    Apart marketId e (e.afterCancel orderId other book order wall) := by
  have hlogged := apart_appendEvent marketId e
    (.cancelled orderId order.orderHash .traderRequest) wall
  refine ⟨hlogged.next, hlogged.market, ?_, hlogged.fills,
    hlogged.tables.nonces, hlogged.tables.unseen, hlogged.tables.index,
    hlogged.tables.accepted⟩
  exact (HashMap.get?_insert _ _ _ _).trans (if_neg hother.symm)

theorem apart_executed {completed basic : Prop}
    (hinv : e.Inv completed basic noOrder)
    (hfresh : e.Admits (.processOrder signed env))
    (hsubmits : Engine.Submits crypto e signed env) {book : OrderBook}
    (hbook : e.books.get? signed.marketId.value = some book)
    (hother : signed.marketId.value ≠ marketId) {st : MatchState}
    (hst : matchOrder book
      (Engine.buildOrder crypto signed env e.sequencer.peekNextSeqId)
      e.sequencer.peekNextSeqId env.nowMs = st) {e₁ : Engine}
    (hexecuted : e.Executed crypto signed env st e₁) :
    Apart marketId e e₁ where
  next := by
    rw [hexecuted.writes.next]
    omega
  market := by
    rw [hexecuted.tables.markets]
    rfl
  book := by rw [hexecuted.books, if_neg hother.symm]
  fills := by
    rw [hexecuted.fillsOf, List.filter_eq_nil_iff.mpr, List.append_nil]
    intro fill hfill
    rw [← hst] at hfill
    rw [Fill.isIn, hsubmits.fills_market hinv hfresh hbook fill hfill]
    simpa using hother
  tables := by
    refine ⟨fun traderId => ?_, fun key => ?_, fun id => ?_,
      fun order horder => ?_⟩
    · rw [hexecuted.lastNonce]
      split
      · next htrader =>
          rw [htrader]
          exact UInt64.le_of_lt hsubmits.nonce
      · exact UInt64.le_refl _
    · rw [hexecuted.unseen_iff]
      exact And.right
    · rw [hexecuted.index]
      split
      · exact fun hid => absurd (Option.some.inj hid) hother
      · exact fun hid => hid
    · rw [hexecuted.accepted]
      exact ⟨order, List.mem_append_left _ horder, rfl⟩

end Follows

/-! ## Every step -/

section Runs

variable {crypto : Crypto} {marketId : String} {ρ : Nat → Nat} {e e' : Engine}

theorem apart_switchMarket (e : Engine) {other : String}
    {source target : MarketStatus} {event : Event} (hquiet : event.Quiet)
    (wall : Nat → UInt64)
    (hskip : ((Reply.admin (e.switchMarket other source target event
      wall).2).succeeded && other == marketId) = false) :
    Apart marketId e (e.switchMarket other source target event wall).1 := by
  obtain ⟨error, hrefused⟩ | ⟨market, hfind, htarget, hsource⟩ :=
    Engine.switchMarket_cases e other source target event wall
  · rw [hrefused]
    exact .refl marketId e
  · rw [Engine.switchMarket_eq hfind htarget hsource] at hskip ⊢
    have hother : market.id.value ≠ marketId := by
      rw [Engine.findMarket_id hfind]
      simpa [Reply.succeeded] using hskip
    exact (apart_addMarket e { market with status := target } hother).trans
      (apart_appendEvent marketId _ hquiet wall)

theorem apart_apply (hinv : e.Inv True True noOrder) (hpresent : e.BooksPresent)
    {op : Op} (hadmits : e.Admits op) (hbasic : op.isBasic = true)
    (hskip : e.worksIn crypto marketId op = false) :
    Apart marketId e (e.apply crypto op).1 := by
  cases op with
  | addMarket config =>
      refine apart_addMarket e config ?_
      simpa [Engine.worksIn, Engine.apply, Reply.succeeded, Engine.concerns]
        using hskip
  | processOrder signed env =>
      by_cases hsubmits : Engine.Submits crypto e signed env
      · obtain ⟨-, market, hmarket⟩ := Engine.checkIntake_ok hsubmits.intake
        obtain ⟨book, hbook⟩ := hpresent.registered hmarket
        obtain ⟨e₁, hdone, hexecuted⟩ := hsubmits.completes hbook rfl rfl
        simp only [Engine.worksIn, Engine.apply, hdone] at hskip ⊢
        refine apart_executed hinv hadmits hsubmits hbook ?_ rfl hexecuted
        simpa [Reply.succeeded, Engine.concerns] using hskip
      · rw [Engine.apply, (Engine.processOrder_rejects hsubmits).1]
        exact .refl marketId e
  | processCancel orderId traderId wall =>
      obtain ⟨hsame, -⟩ | ⟨other, book, order, hcancels⟩ :=
        Engine.processCancel_cases e orderId traderId wall
      · rw [Engine.apply, hsame]
        exact .refl marketId e
      · simp only [Engine.worksIn, Engine.apply,
          hcancels.processCancel_eq] at hskip ⊢
        refine apart_afterCancel e orderId ?_ book order wall
        simpa [Reply.succeeded, Engine.concerns, hcancels.index] using hskip
  | pauseMarket other triggeredBy wall =>
      exact apart_switchMarket e (.paused _ _) wall hskip
  | resumeMarket other triggeredBy wall =>
      exact apart_switchMarket e (.resumed _ _) wall hskip
  | cancelAllOrders => cases hbasic
  | restoreFromEvents => cases hbasic

theorem Follows.switchMarket (h : Follows marketId ρ e e')
    (hkeyed : e.MarketsKeyed) (hkeyed' : e'.MarketsKeyed)
    {source target : MarketStatus} {event : Event} (hquiet : event.Quiet)
    (wall : Nat → UInt64)
    (hworks : (Reply.admin (e.switchMarket marketId source target event
      wall).2).succeeded = true) :
    ∃ ρ', Follows marketId ρ'
        (e.switchMarket marketId source target event wall).1
        (e'.switchMarket marketId source target event wall).1 ∧
      (Reply.admin (e'.switchMarket marketId source target event
        wall).2).succeeded = true := by
  obtain ⟨error, hrefused⟩ | ⟨market, hfind, htarget, hsource⟩ :=
    Engine.switchMarket_cases e marketId source target event wall
  · rw [hrefused] at hworks
    cases hworks
  · have hfind' : e'.findMarket marketId = some market := by
      rw [hkeyed'.findMarket, h.market, ← hkeyed.findMarket, hfind]
    rw [Engine.switchMarket_eq hfind htarget hsource,
      Engine.switchMarket_eq hfind' htarget hsource]
    have hid := Engine.findMarket_id hfind
    obtain ⟨ρ', hadded, haligned⟩ :=
      (h.addMarket { market with status := target } hid).align
    exact ⟨ρ', hadded.appendEvent haligned hquiet wall, rfl⟩

theorem submits_of_succeeded {signed : SignedOrder} {env : CallEnv}
    (h : (e.apply crypto (.processOrder signed env)).2.succeeded = true) :
    Engine.Submits crypto e signed env := by
  by_contra hrejected
  obtain ⟨-, -, hanswer⟩ := Engine.processOrder_rejects hrejected
  simp only [Engine.apply] at h
  cases houtcome : (e.processOrder crypto signed env).2 with
  | ok result =>
      obtain ⟨record, -, rfl⟩ := hanswer result houtcome
      rw [houtcome] at h
      cases h
  | _ =>
      rw [houtcome] at h
      cases h

theorem cancels_of_succeeded {orderId : OrderId} {traderId : String}
    {wall : Nat → UInt64}
    (h : (e.apply crypto
      (.processCancel orderId traderId wall)).2.succeeded = true) :
    ∃ marketId book order, e.Cancels orderId traderId marketId book order := by
  obtain ⟨-, hclosed⟩ | hcancels :=
    Engine.processCancel_cases e orderId traderId wall
  · simp only [Engine.apply] at h
    cases houtcome : (e.processCancel orderId traderId wall).2 with
    | ok result =>
        rw [houtcome, Reply.succeeded, hclosed result houtcome] at h
        cases h
    | _ =>
        rw [houtcome] at h
        cases h
  · exact hcancels

theorem Follows.apply (h : Follows marketId ρ e e') (hkeyed : e.MarketsKeyed)
    (hkeyed' : e'.MarketsKeyed) (hpresent : e.BooksPresent) {op : Op}
    (hbasic : op.isBasic = true)
    (hworks : e.worksIn crypto marketId op = true) :
    ∃ ρ', Follows marketId ρ' (e.apply crypto op).1 (e'.apply crypto op).1 ∧
      (e'.apply crypto op).2.succeeded = true := by
  obtain ⟨hsucceeds, hconcerns⟩ := Bool.and_eq_true_iff.mp hworks
  cases op with
  | addMarket config =>
      refine ⟨ρ, h.addMarket config ?_, rfl⟩
      simpa [Engine.concerns] using hconcerns
  | processOrder signed env =>
      obtain rfl : signed.marketId.value = marketId := by
        simpa [Engine.concerns] using hconcerns
      have hsubmits := submits_of_succeeded hsucceeds
      obtain ⟨-, market, hmarket⟩ := Engine.checkIntake_ok hsubmits.intake
      obtain ⟨book, hbook⟩ := hpresent.registered hmarket
      obtain ⟨ρ', haligns, haligned⟩ := h.align
      obtain ⟨⟨result, hok, hnew⟩, hfollows⟩ :=
        haligns.submit haligned hsubmits hbook
      exact ⟨ρ', hfollows, by simp [Engine.apply, hok, hnew, Reply.succeeded]⟩
  | processCancel orderId traderId wall =>
      obtain ⟨other, book, order, hcancels⟩ := cancels_of_succeeded hsucceeds
      obtain rfl : other = marketId := by
        simpa [Engine.concerns, hcancels.index] using hconcerns
      obtain ⟨ρ', haligns, haligned⟩ := h.align
      obtain ⟨book', order', hcancels', hfollows⟩ :=
        haligns.cancel haligned hcancels wall
      simp only [Engine.apply, hcancels.processCancel_eq,
        hcancels'.processCancel_eq]
      exact ⟨ρ', hfollows, rfl⟩
  | pauseMarket other triggeredBy wall =>
      obtain rfl : other = marketId := by
        simpa [Engine.concerns] using hconcerns
      exact h.switchMarket hkeyed hkeyed' (.paused _ _) wall hsucceeds
  | resumeMarket other triggeredBy wall =>
      obtain rfl : other = marketId := by
        simpa [Engine.concerns] using hconcerns
      exact h.switchMarket hkeyed hkeyed' (.resumed _ _) wall hsucceeds
  | cancelAllOrders => cases hbasic
  | restoreFromEvents => cases hbasic

theorem Follows.admits (h : Follows marketId ρ e e') {op : Op}
    (hadmits : e.Admits op) (hbasic : op.isBasic = true) : e'.Admits op := by
  cases op with
  | processOrder signed env =>
      intro order horder
      obtain ⟨original, hmem, hid⟩ := h.tables.accepted order horder
      rw [← hid]
      exact hadmits original hmem
  | restoreFromEvents => cases hbasic
  | _ => trivial

/-- Two reachable engines, of which the second follows one market. -/
def Tracks (crypto : Crypto) (marketId : String) (e e' : Engine) : Prop :=
  (∃ ops, Run (BasicStep crypto) .new ops e) ∧
    (∃ ops, Run (SucceedingStep crypto) .new ops e') ∧
    ∃ ρ, Follows marketId ρ e e'

theorem Tracks.skip (h : Tracks crypto marketId e e') {op : Op} {e₁ : Engine}
    (hstep : BasicStep crypto e op e₁)
    (hskip : e.worksIn crypto marketId op = false) :
    Tracks crypto marketId e₁ e' := by
  obtain ⟨⟨ops, hrun⟩, hrun', ρ, hfollows⟩ := h
  obtain ⟨hinv, hpresent⟩ := BasicStep.run_inv hrun
  refine ⟨⟨_, .next hrun hstep⟩, hrun', ρ, ?_⟩
  obtain ⟨⟨hadmits, rfl⟩, hbasic⟩ := hstep
  exact hfollows.skip (apart_apply hinv hpresent hadmits hbasic hskip)

theorem Tracks.keep (h : Tracks crypto marketId e e') {op : Op} {e₁ : Engine}
    (hstep : BasicStep crypto e op e₁)
    (hworks : e.worksIn crypto marketId op = true) :
    ∃ e₁', SucceedingStep crypto e' op e₁' ∧ Tracks crypto marketId e₁ e₁' := by
  obtain ⟨⟨ops, hrun⟩, ⟨ops', hrun'⟩, ρ, hfollows⟩ := h
  have hkeyed := BasicStep.run_keyed hrun
  have hkeyed' := BasicStep.run_keyed (hrun'.mono fun _ _ _ h => h.1)
  have hnext : Run (BasicStep crypto) .new _ e₁ := .next hrun hstep
  obtain ⟨⟨hadmits, rfl⟩, hbasic⟩ := hstep
  obtain ⟨ρ', hfollows', hsucceeds⟩ := hfollows.apply hkeyed hkeyed'
    (BasicStep.run_inv hrun).2 hbasic hworks
  have hstep' : SucceedingStep crypto e' op (e'.apply crypto op).1 :=
    ⟨⟨⟨hfollows.admits hadmits hbasic, rfl⟩, hbasic⟩, hsucceeds⟩
  exact ⟨_, hstep', ⟨_, hnext⟩, ⟨_, .next hrun' hstep'⟩, ρ', hfollows'⟩

/--
The operations that succeed in a market, run alone from a fresh engine, succeed
again and give that market the same fills and the same book, up to an increasing
change of the sequence numbers.
-/
theorem markets_independent {ops : List Op}
    (h : Run (BasicStep crypto) .new ops e) (marketId : String) :
    ∃ e' ρ, StrictMono ρ ∧
      Run (SucceedingStep crypto) .new
        (Engine.new.operationsIn crypto marketId ops) e' ∧
      fillsOf marketId e.log =
        (fillsOf marketId e'.log).map (Fill.renumber ρ) ∧
      e.books.get? marketId =
        (e'.books.get? marketId).map (OrderBook.renumber ρ) := by
  have hstart : Tracks crypto marketId .new .new :=
    ⟨⟨_, .start⟩, ⟨_, .start⟩, id, .new marketId⟩
  obtain ⟨e', hrun', -, -, ρ, hfollows⟩ :=
    Run.kept (fun _ _ _ hstep => hstep.1.2)
      (fun _ _ _ _ htracks hstep hworks => htracks.keep hstep hworks)
      (fun _ _ _ _ htracks hstep hskip => htracks.skip hstep hskip) hstart h
  exact ⟨e', ρ, hfollows.renumbers.mono, hrun', hfollows.fills, hfollows.book⟩

end Runs

/-! ## A session in two markets -/

namespace Sample

def twoMarkets : List Op :=
  [.addMarket market, .addMarket btcUsdc, .processOrder ask askEnv,
    .pauseMarket "BTC-USDC" "operator" wall, .processOrder bid bidEnv]

theorem twoMarkets_independent :
    ∃ e' ρ, StrictMono ρ ∧
      Run (SucceedingStep crypto) .new
        (Engine.new.operationsIn crypto "BTC-USD" twoMarkets) e' ∧
      fillsOf "BTC-USD" (after twoMarkets).log =
        (fillsOf "BTC-USD" e'.log).map (Fill.renumber ρ) ∧
      (after twoMarkets).books.get? "BTC-USD" =
        (e'.books.get? "BTC-USD").map (OrderBook.renumber ρ) := by
  have hask : (after [.addMarket market, .addMarket btcUsdc]).Admits
      (.processOrder ask askEnv) := nofun
  have hbid : (after [.addMarket market, .addMarket btcUsdc,
      .processOrder ask askEnv, .pauseMarket "BTC-USDC" "operator" wall]).Admits
      (.processOrder bid bidEnv) := by
    have hids : (accepted (after [.addMarket market, .addMarket btcUsdc,
        .processOrder ask askEnv,
        .pauseMarket "BTC-USDC" "operator" wall]).log).map Order.orderId =
        [⟨"ask"⟩] := by
      decide +kernel
    intro order horder hid
    have hmem := List.mem_map_of_mem (f := Order.orderId) horder
    rw [hids, hid] at hmem
    revert hmem
    decide
  have hrun : Run (BasicStep crypto) .new twoMarkets (after twoMarkets) :=
    .next (.next (.next (.next (.next .start ⟨⟨trivial, rfl⟩, rfl⟩)
      ⟨⟨trivial, rfl⟩, rfl⟩) ⟨⟨hask, rfl⟩, rfl⟩) ⟨⟨trivial, rfl⟩, rfl⟩)
      ⟨⟨hbid, rfl⟩, rfl⟩
  exact markets_independent hrun "BTC-USD"

end Sample

end ClobApi
