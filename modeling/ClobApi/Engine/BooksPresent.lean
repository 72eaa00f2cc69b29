import ClobApi.Engine.Writes

/-!
# Every market has its book

`process_order` and `process_cancel` unwrap the book of a registered or indexed
market.  Every operation keeps these books except recovery, which replaces the
whole map by the books of the markets that the log leaves an order open in.
-/

namespace ClobApi

open Foundation

structure Engine.BooksPresent (e : Engine) : Prop where
  registered : ∀ {marketId config}, e.markets.get? marketId = some config →
    ∃ book, e.books.get? marketId = some book
  indexed : ∀ {id marketId}, e.orderMarketIndex.get? id = some marketId →
    ∃ book, e.books.get? marketId = some book

structure KeepsBooks (e e' : Engine) : Prop where
  markets : e'.markets = e.markets
  index : e'.orderMarketIndex = e.orderMarketIndex
  books : ∀ {marketId book}, e.books.get? marketId = some book →
    ∃ book', e'.books.get? marketId = some book'

theorem KeepsBooks.refl (e : Engine) : KeepsBooks e e :=
  ⟨rfl, rfl, fun h => ⟨_, h⟩⟩

theorem KeepsBooks.trans {e e' e'' : Engine} (h : KeepsBooks e e')
    (h' : KeepsBooks e' e'') : KeepsBooks e e'' where
  markets := h'.markets.trans h.markets
  index := h'.index.trans h.index
  books := fun hget => (h.books hget).elim fun _ hget' => h'.books hget'

theorem Engine.BooksPresent.keep {e e' : Engine} (h : e.BooksPresent)
    (hkeeps : KeepsBooks e e') : e'.BooksPresent where
  registered := fun hget => (h.registered (hkeeps.markets ▸ hget)).elim fun _ =>
    hkeeps.books
  indexed := fun hget => (h.indexed (hkeeps.index ▸ hget)).elim fun _ =>
    hkeeps.books

theorem exists_get?_insert {κ ν : Type} [DecidableEq κ] {m : HashMap κ ν}
    {k : κ} {v : ν} (h : m.get? k = some v) (k' : κ) (v' : ν) :
    ∃ v'', (m.insert k' v').get? k = some v'' := by
  rw [HashMap.get?_insert]
  split
  · exact ⟨_, rfl⟩
  · exact ⟨_, h⟩

theorem keepsBooks_insert (e : Engine) (marketId : String) (book : OrderBook)
    (sequencer : Sequencer) (state : StateStore) :
    KeepsBooks e
      { e with books := e.books.insert marketId book, sequencer, state } :=
  ⟨rfl, rfl, fun hget => exists_get?_insert hget _ _⟩

theorem keepsBooks_log (e : Engine) (sequencer : Sequencer)
    (state : StateStore) : KeepsBooks e { e with sequencer, state } :=
  ⟨rfl, rfl, fun hget => ⟨_, hget⟩⟩

theorem keepsBooks_foldl {α : Type} {f : Engine → α → Engine}
    (hf : ∀ e a, KeepsBooks e (f e a)) (l : List α) (e : Engine) :
    KeepsBooks e (l.foldl f e) := by
  induction l generalizing e with
  | nil => exact .refl e
  | cons a l ih => exact (hf e a).trans (ih (f e a))

/-! ## Submissions and cancellations -/

theorem Engine.Executed.present {crypto : Crypto} {e e' : Engine}
    {signed : SignedOrder} {env : CallEnv} {st : MatchState}
    (h : e.Executed crypto signed env st e') (hpresent : e.BooksPresent) :
    e'.BooksPresent := by
  have hkept : ∀ {marketId book}, e.books.get? marketId = some book →
      ∃ book', e'.books.get? marketId = some book' := by
    intro marketId book hget
    rw [h.books]
    split
    · exact ⟨_, rfl⟩
    · exact ⟨book, hget⟩
  refine ⟨fun {marketId config} hget => ?_, fun {id marketId} hindex => ?_⟩
  · rw [h.tables.markets] at hget
    exact (hpresent.registered hget).elim fun _ => hkept
  · rw [h.index] at hindex
    split at hindex
    · exact ⟨_, (h.books marketId).trans (if_pos (Option.some.inj hindex).symm)⟩
    · exact (hpresent.indexed hindex).elim fun _ => hkept

theorem processOrder_present {e : Engine} (h : e.BooksPresent) (crypto : Crypto)
    (signed : SignedOrder) (env : CallEnv) :
    (e.processOrder crypto signed env).1.BooksPresent ∧
      (e.processOrder crypto signed env).2 ≠ .panic := by
  by_cases hsubmits : Engine.Submits crypto e signed env
  · obtain ⟨-, market, hmarket⟩ := Engine.checkIntake_ok hsubmits.intake
    obtain ⟨book, hbook⟩ := h.registered hmarket
    obtain ⟨e', hdone, hexecuted⟩ := hsubmits.completes hbook rfl rfl
    rw [hdone]
    exact ⟨hexecuted.present h, by simp⟩
  · obtain ⟨hsame, hcalm, -⟩ := Engine.processOrder_rejects hsubmits
    exact ⟨hsame.symm ▸ h, hcalm⟩

theorem processCancel_present {e : Engine} (h : e.BooksPresent)
    (orderId : OrderId) (traderId : String) (wall : Nat → UInt64) :
    (e.processCancel orderId traderId wall).1.BooksPresent ∧
      (e.processCancel orderId traderId wall).2 ≠ .panic := by
  constructor
  · obtain ⟨hsame, -⟩ | ⟨marketId, book, order, hcancels⟩ :=
      Engine.processCancel_cases e orderId traderId wall
    · rwa [hsame]
    · rw [hcancels.processCancel_eq]
      exact h.keep (keepsBooks_insert e _ _ _ _)
  · unfold Engine.processCancel
    cases hindex : e.orderMarketIndex.get? orderId with
    | none => simp
    | some marketId =>
        obtain ⟨book, hbook⟩ := h.indexed hindex
        simp only [hbook]
        split
        · simp
        · split
          · simp
          · split <;> simp

/-! ## Administration -/

theorem addMarket_present {e : Engine} (h : e.BooksPresent)
    (config : MarketConfig) : (e.addMarket config).BooksPresent where
  registered := by
    intro marketId config' hget
    change (e.markets.insert config.id.value config).get? marketId = _ at hget
    change ∃ book, (e.books.insert config.id.value _).get? marketId = some book
    rw [HashMap.get?_insert] at hget ⊢
    split
    · exact ⟨_, rfl⟩
    · next hne =>
        rw [if_neg hne] at hget
        exact h.registered hget
  indexed := fun hindex => (h.indexed hindex).elim fun _ hget =>
    exists_get?_insert hget _ _

theorem switchMarket_present {e : Engine} (h : e.BooksPresent)
    (marketId : String) (source target : MarketStatus) (event : Event)
    (wall : Nat → UInt64) :
    (e.switchMarket marketId source target event wall).1.BooksPresent := by
  obtain ⟨error, hrefused⟩ | ⟨market, hfind, htarget, hsource⟩ :=
    Engine.switchMarket_cases e marketId source target event wall
  · rwa [hrefused]
  · rw [Engine.switchMarket_eq hfind htarget hsource]
    exact (addMarket_present h { market with status := target }).keep
      (keepsBooks_log _ _ _)

theorem cancelAllOrders_present {e : Engine} (h : e.BooksPresent)
    (marketId : String) (wall : Nat → UInt64) :
    (e.cancelAllOrders marketId wall).1.BooksPresent := by
  unfold Engine.cancelAllOrders
  split
  · exact h
  · exact h.keep (keepsBooks_foldl (fun e target => keepsBooks_log e _ _) _ e)

/-! ## Recovery -/

/--
Every registered market, and every market of an order in the log, has an order
that the log leaves open.
-/
def LeavesOpen (e : Engine) (events : List SequencedEvent) : Prop :=
  ∀ marketId, ((∃ config, e.markets.get? marketId = some config) ∨
      ∃ id order, orderInLog events id = some order ∧
        order.marketId.value = marketId) →
    ∃ id order, orderInLog events id = some order ∧ order.isClosed = false ∧
      order.marketId.value = marketId

/--
After recovery from a log every market has its book exactly if the log leaves it
an order.
-/
theorem restoreFromEvents_present_iff (e : Engine) {shuffle : Shuffle Order}
    {events : List SequencedEvent} {result : ReplayResult} (hne : events ≠ [])
    (hreplay : replay shuffle events = .ok result) :
    (e.restoreFromEvents shuffle events).1.BooksPresent ↔
      LeavesOpen e events := by
  unfold replay at hreplay
  cases hwalk : Replay.walk events with
  | error error => simp [hwalk, bind, Except.bind] at hreplay
  | ok progress =>
  simp only [hwalk, bind, Except.bind, pure, Except.pure,
    Except.ok.injEq] at hreplay
  have hviews := walk_views hwalk
  have hrestored : (e.restoreFromEvents shuffle events).1 =
      { e with
        books := Replay.buildBooks shuffle progress.orders
        state := progress.state
        orderMarketIndex := events.foldl Engine.indexAccepted .empty
        sequencer :=
          .resume ((events.getLast?.map fun se => se.seqId + 1).getD 1) events }
      := by
    unfold Engine.restoreFromEvents
    rw [if_neg (by simpa using hne)]
    simp only [replay, hwalk, bind, Except.bind, pure, Except.pure]
  have hbook : ∀ marketId, (∃ book,
      (Replay.buildBooks shuffle progress.orders).get? marketId = some book) ↔
        ∃ id order, orderInLog events id = some order ∧ order.isClosed = false ∧
          order.marketId.value = marketId := by
    intro marketId
    rw [← Option.isSome_iff_exists, buildBooks_isSome]
    simp only [hviews.orders]
  rw [hrestored]
  constructor
  · rintro hpresent marketId (⟨config, hconfig⟩ | ⟨id, order, hview, rfl⟩)
    · exact (hbook _).mp (hpresent.registered hconfig)
    · have hindex : (events.foldl Engine.indexAccepted .empty).get? id =
          some order.marketId.value := by
        rw [get?_foldl_indexAccepted, hview]
        rfl
      exact (hbook _).mp (hpresent.indexed hindex)
  · intro hopen
    refine ⟨
      fun {marketId config} hget =>
        (hbook _).mpr (hopen _ (.inl ⟨config, hget⟩)),
      fun {id marketId} hindex => (hbook _).mpr (hopen _ (.inr ?_))⟩
    obtain ⟨order, hview, hmarket⟩ :=
      Option.map_eq_some_iff.mp
        ((get?_foldl_indexAccepted events id).symm.trans hindex)
    exact ⟨id, order, hview, hmarket⟩

/-! ## Runs -/

def Op.Replayable : Op → Prop
  | .restoreFromEvents shuffle events =>
      ∃ result, replay shuffle events = .ok result
  | _ => True

/--
Recovery is only called with an empty log or with one that leaves every market
an order.
-/
def Engine.RecoversBooks (e : Engine) : Op → Prop
  | .restoreFromEvents _ events => events = [] ∨ LeavesOpen e events
  | _ => True

def AnyLogStep (crypto : Crypto) (e : Engine) (op : Op) (e' : Engine) : Prop :=
  op.Replayable ∧ (e.apply crypto op).1 = e'

def RecoveryStep (crypto : Crypto) (e : Engine) (op : Op)
    (e' : Engine) : Prop :=
  AnyLogStep crypto e op e' ∧ e.RecoversBooks op

theorem Engine.new_present : Engine.new.BooksPresent := ⟨nofun, nofun⟩

theorem apply_panicked (crypto : Crypto) {e : Engine}
    (h : e.BooksPresent) (op : Op) :
    (e.apply crypto op).2.panicked = false := by
  cases op with
  | processOrder signed env =>
      have hcalm := (processOrder_present h crypto signed env).2
      simp only [Engine.apply]
      cases houtcome : (e.processOrder crypto signed env).2 with
      | panic => exact absurd houtcome hcalm
      | _ => rfl
  | processCancel orderId traderId wall =>
      have hcalm := (processCancel_present h orderId traderId wall).2
      simp only [Engine.apply]
      cases houtcome : (e.processCancel orderId traderId wall).2 with
      | panic => exact absurd houtcome hcalm
      | _ => rfl
  | _ => rfl

theorem apply_present {crypto : Crypto} {e : Engine} (h : e.BooksPresent)
    {op : Op} (hreplayable : op.Replayable) (hrecovers : e.RecoversBooks op) :
    (e.apply crypto op).1.BooksPresent := by
  cases op with
  | addMarket config => exact addMarket_present h config
  | processOrder signed env =>
      exact (processOrder_present h crypto signed env).1
  | processCancel orderId traderId wall =>
      exact (processCancel_present h orderId traderId wall).1
  | pauseMarket => exact switchMarket_present h _ _ _ _ _
  | resumeMarket => exact switchMarket_present h _ _ _ _ _
  | cancelAllOrders marketId wall =>
      exact cancelAllOrders_present h marketId wall
  | restoreFromEvents shuffle events =>
      obtain ⟨result, hreplay⟩ := hreplayable
      by_cases hne : events = []
      · subst hne
        exact h
      · exact (restoreFromEvents_present_iff e hne hreplay).mpr
          (hrecovers.resolve_left hne)

theorem RecoveryStep.run_present {crypto : Crypto} {ops : List Op} {e : Engine}
    (h : Run (RecoveryStep crypto) .new ops e) : e.BooksPresent :=
  h.invariant Engine.new_present fun e op e' hpresent hstep => by
    obtain ⟨⟨hreplayable, rfl⟩, hrecovers⟩ := hstep
    exact apply_present hpresent hreplayable hrecovers

/-- Runs without recovery never panic, so their invariant holds in full. -/
theorem BasicStep.run_inv {crypto : Crypto} {ops : List Op} {e : Engine}
    (h : Run (BasicStep crypto) .new ops e) :
    e.Inv True True noOrder ∧ e.BooksPresent := by
  induction h with
  | start => exact ⟨Engine.new_inv True True, Engine.new_present⟩
  | @next _ e op _ _ hstep ih =>
      obtain ⟨hinv, hpresent⟩ := ih
      obtain ⟨⟨hadmits, rfl⟩, hbasic⟩ := hstep
      refine ⟨apply_inv hinv hadmits
        (fun _ => apply_panicked crypto hpresent op)
          fun _ => Op.isTrading_of_isBasic hbasic, ?_⟩
      cases op with
      | cancelAllOrders => cases hbasic
      | restoreFromEvents => cases hbasic
      | _ => exact apply_present hpresent trivial trivial

theorem BasicStep.run_completed {crypto : Crypto} {ops : List Op} {e : Engine}
    (h : Run (BasicStep crypto) .new ops e) :
    Run (CompletedStep crypto) .new ops e := by
  induction h with
  | start => exact .start
  | next hrun hstep ih =>
      exact .next ih
        ⟨hstep.1, apply_panicked crypto (BasicStep.run_inv hrun).2 _⟩

/--
While recovery finds an open order for every market, no call panics.  Whether
the books survive a recovery is decided by that condition alone.
-/
theorem recovery_keeps_books {crypto : Crypto} {ops : List Op} {e : Engine}
    (h : Run (RecoveryStep crypto) .new ops e) :
    e.BooksPresent ∧ (∀ op, (e.apply crypto op).2.panicked = false) ∧
      ∀ shuffle events result, events ≠ [] →
        replay shuffle events = .ok result →
        ((e.restoreFromEvents shuffle events).1.BooksPresent ↔
          LeavesOpen e events) :=
  have hpresent := RecoveryStep.run_present h
  ⟨hpresent, fun op => apply_panicked crypto hpresent op,
    fun _ _ _ hne hreplay => restoreFromEvents_present_iff e hne hreplay⟩

section Sample

open Sample

private theorem traded_leavesOpen :
    LeavesOpen (after traded) (after traded).log := by
  obtain ⟨hlog, hmarkets⟩ := traded_log
  have horders : ∀ order ∈ accepted (after traded).log,
      order.marketId.value = "BTC-USD" := by
    rw [hlog]
    decide
  have hopen : ((orderInLog (after traded).log ⟨"ask"⟩).any fun order =>
      !order.isClosed && order.marketId.value == "BTC-USD") = true := by
    rw [hlog]
    decide
  have hmarket : ∀ marketId,
      ((∃ config, (after traded).markets.get? marketId = some config) ∨
      ∃ id order, orderInLog (after traded).log id = some order ∧
        order.marketId.value = marketId) → marketId = "BTC-USD" := by
    rintro marketId (⟨config, hconfig⟩ | ⟨id, order, hview, rfl⟩)
    · rw [← HashMap.mem_bindings, hmarkets] at hconfig
      simpa using congrArg Prod.fst (List.mem_singleton.mp hconfig)
    · obtain ⟨new, hmem, -, hterms⟩ := orderInLog_accepted hview
      have hid : order.marketId = new.marketId := by
        simpa using congrArg Order.marketId hterms
      rw [hid, horders new hmem]
  intro marketId h
  obtain ⟨order, hview, horder⟩ := (Option.any_eq_true _ _).mp hopen
  simp only [Bool.and_eq_true, Bool.not_eq_true', beq_iff_eq] at horder
  exact ⟨⟨"ask"⟩, order, hview, horder.1,
    horder.2.trans (hmarket marketId h).symm⟩

private theorem after_replayable {ops : List Op}
    (h : Run (BasicStep crypto) .new ops (after ops)) :
    ∃ result, replay .id (after ops).log = .ok result := by
  obtain ⟨progress, hwalk, -⟩ := (BasicStep.run_inv h).1.legal.walk_ok
  simp only [replay, hwalk, bind, Except.bind, pure, Except.pure]
  exact ⟨_, rfl⟩

theorem recovery_keeps_books_traded :
    (after (recovering traded)).BooksPresent := by
  have hrun : Run (RecoveryStep crypto) .new traded (after traded) :=
    .next
      (.next (.next .start ⟨⟨trivial, rfl⟩, trivial⟩) ⟨⟨trivial, rfl⟩, trivial⟩)
      ⟨⟨trivial, rfl⟩, trivial⟩
  have hlast : RecoveryStep crypto (after traded)
      (.restoreFromEvents .id (after traded).log) (after (recovering traded)) :=
    ⟨⟨after_replayable traded_run, apply_restore traded⟩,
      .inr traded_leavesOpen⟩
  exact (recovery_keeps_books (.next hrun hlast)).1

/--
The session cancels its only order and recovers its own log: the market is
registered and has no book, and the next submission panics after it was logged.
-/
theorem restored_market_without_book :
    ∃ e, Run (AnyLogStep crypto) .new (recovering cancelled) e ∧
      ¬ e.BooksPresent ∧
      (e.apply crypto (.processOrder bid bidEnv)).2.panicked = true ∧
      (e.apply crypto (.processOrder bid bidEnv)).1.log.length =
        e.log.length + 1 := by
  have hrun : Run (AnyLogStep crypto) .new cancelled (after cancelled) :=
    .next (.next (.next .start ⟨trivial, rfl⟩) ⟨trivial, rfl⟩) ⟨trivial, rfl⟩
  have hpanic : ((after (recovering cancelled)).apply crypto
        (.processOrder bid bidEnv)).2.panicked = true ∧
      ((after (recovering cancelled)).apply crypto
        (.processOrder bid bidEnv)).1.log.length =
        (after (recovering cancelled)).log.length + 1 := by
    decide +kernel
  refine ⟨_, .next hrun
    ⟨after_replayable cancelled_run, apply_restore cancelled⟩,
    fun hpresent => ?_, hpanic⟩
  have hcalm := apply_panicked crypto hpresent (.processOrder bid bidEnv)
  exact absurd (hcalm.symm.trans hpanic.1) nofun

end Sample

end ClobApi
