import ClobApi.Replay.Rebuild

/-!
# The live books against the log

`BooksSync` relates the live books to the view that the log gives of each order.
The books are valid; what they store has the facts that the log tells.  In runs
without a panic every order that the log leaves open is also live in its book
(`completed`); in runs without `cancel_all_orders` the stored orders follow the
log in their status as well (`basic`).  The order being matched is `pending`: it
is in the log and in no book.
-/

namespace ClobApi

open Foundation

def OrderBook.Uncrossed (book : OrderBook) : Prop :=
  ∀ bid ask, book.Resting .buy bid → book.Resting .sell ask →
    bid.priceTicks < ask.priceTicks

def storedOrder (books : HashMap String OrderBook) (marketId : String)
    (id : OrderId) : Option Order :=
  (books.get? marketId).bind fun book => book.get id

structure Matches (basic : Prop) (marketId : String)
    (logged live : Order) : Prop where
  market : live.marketId.value = marketId
  facts : logged.facts = live.facts
  core : basic → logged.core = live.core

structure BooksSync (completed basic : Prop) (pending : OrderId → Prop)
    (view : OrderId → Option Order)
    (books : HashMap String OrderBook) : Prop where
  valid : ∀ {marketId book}, books.get? marketId = some book → book.Valid
  uncrossed : completed → ∀ {marketId book}, books.get? marketId = some book →
    book.Uncrossed
  stored : ∀ {marketId id live}, storedOrder books marketId id = some live →
    ∃ logged, view id = some logged ∧ Matches basic marketId logged live
  covered : completed → ∀ {id logged}, view id = some logged →
    logged.isClosed = false → ¬ pending id →
      ∃ live, storedOrder books logged.marketId.value id = some live ∧
      live.core = logged.core

theorem Matches.logged_market {basic : Prop} {marketId : String}
    {logged live : Order} (h : Matches basic marketId logged live) :
    logged.marketId.value = marketId := by
  have hmarket : logged.marketId = live.marketId := by
    simpa using congrArg Order.marketId (Order.terms_eq_of_facts h.facts)
  rw [hmarket, h.market]

theorem storedOrder_eq_some {books : HashMap String OrderBook}
    {marketId : String} {id : OrderId} {live : Order} :
    storedOrder books marketId id = some live ↔
      ∃ book, books.get? marketId = some book ∧ book.get id = some live := by
  simp [storedOrder, Option.bind_eq_some_iff]

theorem storedOrder_insert (books : HashMap String OrderBook)
    (marketId marketId' : String) (book : OrderBook) (id : OrderId) :
    storedOrder (books.insert marketId book) marketId' id =
      if marketId' = marketId then book.get id
      else storedOrder books marketId' id := by
  unfold storedOrder
  rw [HashMap.get?_insert]
  split <;> rfl

/-- The book of a market, a new one where the map has none. -/
def bookAt (books : HashMap String OrderBook) (marketId : String) : OrderBook :=
  (books.get? marketId).getD .new

theorem bookAt_insert (books : HashMap String OrderBook)
    (marketId marketId' : String) (book : OrderBook) :
    bookAt (books.insert marketId' book) marketId =
      if marketId = marketId' then book else bookAt books marketId := by
  unfold bookAt
  rw [HashMap.get?_insert]
  split <;> rfl

theorem get_bookAt (books : HashMap String OrderBook) (marketId : String)
    (id : OrderId) :
    (bookAt books marketId).get id = storedOrder books marketId id := by
  unfold bookAt storedOrder
  cases books.get? marketId with
  | none => rfl
  | some book => rfl

theorem storedOrder_of_bookAt {books books' : HashMap String OrderBook}
    {marketId : String} (h : bookAt books' marketId = bookAt books marketId)
    (id : OrderId) :
    storedOrder books' marketId id = storedOrder books marketId id := by
  rw [← get_bookAt, h, get_bookAt]

theorem storedOrder_put {books : HashMap String OrderBook} {marketId : String}
    {book book' : OrderBook} {id : OrderId} {order : Order}
    (hbook : books.get? marketId = some book)
    (hget : ∀ id', book'.get id' =
      if id' = id then some order else book.get id')
    (marketId' : String) (id' : OrderId) :
    storedOrder (books.insert marketId book') marketId' id' =
      if marketId' = marketId ∧ id' = id then some order
      else storedOrder books marketId' id' := by
  rw [storedOrder_insert, hget]
  by_cases hm : marketId' = marketId
  · subst hm
    by_cases hid : id' = id
    · simp [hid]
    · simp [hid, storedOrder, hbook]
  · simp [hm]

theorem OrderBook.new_uncrossed : OrderBook.new.Uncrossed := by
  rintro bid ask ⟨price, -, hget⟩
  simp [OrderBook.new, OrderBook.get] at hget

theorem OrderBook.Uncrossed.of_resting {book book' : OrderBook}
    (h : book.Uncrossed) (hresting : ∀ side order, book'.Resting side order →
      ∃ old, book.Resting side old ∧ old.priceTicks = order.priceTicks) :
    book'.Uncrossed := by
  intro bid ask hbid hask
  obtain ⟨bid', hbid', hpb⟩ := hresting _ _ hbid
  obtain ⟨ask', hask', hpa⟩ := hresting _ _ hask
  rw [← hpb, ← hpa]
  exact h bid' ask' hbid' hask'

theorem insert_uncrossed {book : OrderBook} {order : Order}
    (hvalid : book.Valid) (hvalid' : (book.insert order).Valid)
    (h : book.Uncrossed)
    (hnocross : ∀ maker, book.Resting order.side.opposite maker →
      ¬ order.Crosses maker.priceTicks) : (book.insert order).Uncrossed := by
  have hresting : ∀ {side o}, (book.insert order).Resting side o →
      o = order ∧ order.side = side ∨ book.Resting side o := by
    intro side o ho
    obtain ⟨hget, hside, hopen⟩ := hvalid'.resting_iff.mp ho
    rw [OrderBook.get_insert] at hget
    split at hget
    · cases hget
      exact .inl ⟨rfl, hside⟩
    · exact .inr (hvalid.resting_iff.mpr ⟨hget, hside, hopen⟩)
  intro bid ask hbid hask
  rcases hresting hbid with ⟨rfl, hbuy⟩ | hbid'
  · rcases hresting hask with ⟨rfl, hsell⟩ | hask'
    · rw [hbuy] at hsell
      cases hsell
    · have := hnocross ask (by simpa [hbuy, Side.opposite] using hask')
      simpa [Order.Crosses, hbuy] using this
  · rcases hresting hask with ⟨rfl, hsell⟩ | hask'
    · have := hnocross bid (by simpa [hsell, Side.opposite] using hbid')
      simpa [Order.Crosses, hsell] using this
    · exact h bid ask hbid' hask'

theorem settle_uncrossed {book : OrderBook} {id : OrderId} {live : Order}
    {f : Order → Order} (hvalid : book.Valid)
    (hvalid' : (book.settle id f).Valid) (hget : book.get id = some live)
    (hopen : live.isClosed = false) (hterms : (f live).terms = live.terms)
    (h : book.Uncrossed) : (book.settle id f).Uncrossed := by
  refine h.of_resting fun side order hresting => ?_
  obtain ⟨hget', hside, hopen'⟩ := hvalid'.resting_iff.mp hresting
  rw [OrderBook.get_settle] at hget'
  split at hget'
  · next hid =>
      rw [hid, hget, Option.map_some, Option.some.injEq] at hget'
      subst hget'
      have hside' : (f live).side = live.side := by
        simpa using congrArg Order.side hterms
      have hprice : (f live).priceTicks = live.priceTicks := by
        simpa using congrArg Order.priceTicks hterms
      have hkey := hvalid.key hget
      refine ⟨live, hvalid.resting_iff.mpr ⟨by rwa [hkey], ?_, hopen⟩,
        hprice.symm⟩
      rw [← hside', hside]
  · exact ⟨order, hvalid.resting_iff.mpr ⟨hget', hside, hopen'⟩, rfl⟩

section Steps

variable {completed basic : Prop} {pending : OrderId → Prop}
  {view : OrderId → Option Order} {books : HashMap String OrderBook}

theorem BooksSync.start : BooksSync completed basic (fun _ => False)
    (fun _ => none) .empty where
  valid := by simp
  uncrossed := by simp
  stored := by simp [storedOrder]
  covered := by simp

theorem BooksSync.congr_view {view' : OrderId → Option Order}
    (h : BooksSync completed basic pending view books)
    (hview : ∀ id, view' id = view id) :
    BooksSync completed basic pending view' books := by
  rwa [funext hview]

theorem storedOrder_congr {books' : HashMap String OrderBook}
    (h : ∀ marketId, books'.get? marketId = books.get? marketId)
    (marketId : String) (id : OrderId) :
    storedOrder books' marketId id = storedOrder books marketId id := by
  rw [storedOrder, h, storedOrder]

theorem BooksSync.congr_books {books' : HashMap String OrderBook}
    (h : BooksSync completed basic pending view books)
    (hbooks : ∀ marketId, books'.get? marketId = books.get? marketId) :
    BooksSync completed basic pending view books' where
  valid := fun hget => h.valid ((hbooks _).symm.trans hget)
  uncrossed := fun hcompleted _ _ hget =>
    h.uncrossed hcompleted ((hbooks _).symm.trans hget)
  stored := fun hstored =>
    h.stored ((storedOrder_congr hbooks _ _).symm.trans hstored)
  covered := by
    intro hcompleted id logged hview hopen hne
    rw [storedOrder_congr hbooks]
    exact h.covered hcompleted hview hopen hne

theorem BooksSync.accept
    (h : BooksSync completed basic (fun _ => False) view books) {order : Order}
    (hfresh : view order.orderId = none) :
    BooksSync completed basic (fun id => id = order.orderId)
      (fun id => if id = order.orderId then some order else view id) books where
  valid := h.valid
  uncrossed := h.uncrossed
  stored := by
    intro marketId id live hstored
    obtain ⟨logged, hview, hmatches⟩ := h.stored hstored
    have hne : id ≠ order.orderId := by
      rintro rfl
      simp [hfresh] at hview
    exact ⟨logged, by simpa [hne] using hview, hmatches⟩
  covered := by
    intro hcompleted id logged hview hopen hne
    rw [if_neg hne] at hview
    exact h.covered hcompleted hview hopen not_false

theorem BooksSync.updateView (h : BooksSync completed basic pending view books)
    (id : OrderId) (g : Order → Order) {pending' : OrderId → Prop}
    (hpending : ∀ id', id' ≠ id → pending id' → pending' id')
    (hstored : ∀ marketId live, storedOrder books marketId id = some live →
      ¬ basic ∧ ∀ logged, (g logged).facts = logged.facts)
    (hdone : ∀ logged, view id = some logged → (g logged).isClosed = true ∨
      pending' id) :
    BooksSync completed basic pending'
      (fun id' => if id' = id then (view id').map g else view id') books where
  valid := h.valid
  uncrossed := h.uncrossed
  stored := by
    intro marketId id' live hlive
    obtain ⟨logged, hview, hmatches⟩ := h.stored hlive
    by_cases hid : id' = id
    · subst hid
      obtain ⟨hbasic, hfacts⟩ := hstored marketId live hlive
      refine ⟨g logged, by simp [hview], hmatches.market, ?_,
        fun hb => absurd hb hbasic⟩
      rw [hfacts, hmatches.facts]
    · exact ⟨logged, by simpa [hid] using hview, hmatches⟩
  covered := by
    intro hcompleted id' logged hview hopen hne
    by_cases hid : id' = id
    · subst hid
      rw [if_pos rfl, Option.map_eq_some_iff] at hview
      obtain ⟨old, hold, rfl⟩ := hview
      rcases hdone old hold with hclosed | hpend
      · simp [hopen] at hclosed
      · exact absurd hpend hne
    · rw [if_neg hid] at hview
      exact h.covered hcompleted hview hopen fun hp => hne (hpending id' hid hp)

theorem BooksSync.put {pending' : OrderId → Prop}
    (h : BooksSync completed basic pending view books)
    {book book' : OrderBook} {id : OrderId} {order old logged : Order}
    (hbook : books.get? order.marketId.value = some book)
    (hget : ∀ id', book'.get id' =
      if id' = id then some order else book.get id')
    (hvalid : book'.Valid) (huncrossed : completed → book'.Uncrossed)
    (hold : view id = some old) (hmarket : old.marketId = order.marketId)
    (hcore : logged.core = order.core)
    (hpending : ∀ id', id' ≠ id → pending id' → pending' id') :
    BooksSync completed basic pending'
      (fun id' => if id' = id then some logged else view id')
      (books.insert order.marketId.value book') where
  valid := HashMap.forall_get?_insert hvalid h.valid
  uncrossed := fun hcompleted =>
    HashMap.forall_get?_insert (huncrossed hcompleted) (h.uncrossed hcompleted)
  stored := by
    intro marketId id' live hlive
    rw [storedOrder_put hbook hget] at hlive
    by_cases hid : id' = id
    · subst hid
      have hm : marketId = order.marketId.value := by
        by_contra hm
        rw [if_neg fun hkey => hm hkey.1] at hlive
        obtain ⟨logged', hview, hmatches⟩ := h.stored hlive
        obtain rfl : old = logged' := Option.some.inj (hold.symm.trans hview)
        rw [← hmatches.logged_market, hmarket] at hm
        exact hm rfl
      rw [if_pos ⟨hm, rfl⟩, Option.some.injEq] at hlive
      subst hlive
      exact ⟨logged, if_pos rfl, hm.symm, Order.facts_eq_of_core hcore,
        fun _ => hcore⟩
    · rw [if_neg fun hkey => hid hkey.2] at hlive
      obtain ⟨logged', hview, hmatches⟩ := h.stored hlive
      exact ⟨logged', (if_neg hid).trans hview, hmatches⟩
  covered := by
    intro hcompleted id' logged' hview hopen hne
    by_cases hid : id' = id
    · subst hid
      rw [if_pos rfl, Option.some.injEq] at hview
      subst hview
      have hm : logged.marketId = order.marketId := by
        simpa using congrArg Order.marketId (Order.terms_eq_of_core hcore)
      exact ⟨order, by rw [storedOrder_put hbook hget, hm, if_pos ⟨rfl, rfl⟩],
        hcore.symm⟩
    · rw [if_neg hid] at hview
      obtain ⟨live, hlive, hcore'⟩ := h.covered hcompleted hview hopen
        fun hp => hne (hpending id' hid hp)
      refine ⟨live, ?_, hcore'⟩
      rwa [storedOrder_put hbook hget, if_neg fun hkey => hid hkey.2]

theorem BooksSync.settle (h : BooksSync completed basic pending view books)
    {marketId : String} {book : OrderBook} {id : OrderId} {live : Order}
    {f g : Order → Order} (hbook : books.get? marketId = some book)
    (hget : book.get id = some live) (hopen : live.isClosed = false)
    (hvalid : (book.settle id f).Valid) (hterms : (f live).terms = live.terms)
    (hcore : ∀ logged, view id = some logged → logged.facts = live.facts →
      (g logged).core = (f live).core) :
    BooksSync completed basic pending
      (fun id' => if id' = id then (view id').map g else view id')
      (books.insert marketId (book.settle id f)) := by
  obtain ⟨logged, hview, hmatches⟩ :=
    h.stored (storedOrder_eq_some.mpr ⟨book, hbook, hget⟩)
  have hmarket : (f live).marketId = live.marketId := by
    simpa using congrArg Order.marketId hterms
  have hlogged : logged.marketId = live.marketId := by
    simpa using congrArg Order.marketId (Order.terms_eq_of_facts hmatches.facts)
  obtain rfl : (f live).marketId.value = marketId := by
    rw [hmarket, hmatches.market]
  have hsettled : ∀ id', (book.settle id f).get id' =
      if id' = id then some (f live) else book.get id' := by
    intro id'
    rw [OrderBook.get_settle]
    split
    · next hid => rw [hid, hget, Option.map_some]
    · rfl
  refine (h.put hbook hsettled hvalid (fun hcompleted => ?_) hview
    (hlogged.trans hmarket.symm) (hcore logged hview hmatches.facts)
    fun _ _ hp => hp).congr_view fun id' => ?_
  · exact settle_uncrossed (h.valid hbook) hvalid hget hopen hterms
      (h.uncrossed hcompleted hbook)
  · split
    · next hid => rw [hid, hview, Option.map_some]
    · rfl

theorem BooksSync.insertResidual {order logged : Order}
    (h : BooksSync completed basic (fun id => id = order.orderId) view books)
    {book : OrderBook} (hbook : books.get? order.marketId.value = some book)
    (hview : view order.orderId = some logged)
    (hcore : logged.core = order.core) (hvalid : (book.insert order).Valid)
    (hnocross : completed → ∀ maker, book.Resting order.side.opposite maker →
      ¬ order.Crosses maker.priceTicks) :
    BooksSync completed basic (fun _ => False) view
      (books.insert order.marketId.value (book.insert order)) := by
  have hmarket : logged.marketId = order.marketId := by
    simpa using congrArg Order.marketId (Order.terms_eq_of_core hcore)
  refine (h.put hbook (OrderBook.get_insert book order) hvalid
    (fun hcompleted => ?_) hview hmarket hcore
    fun _ hne hp => hne hp).congr_view fun id => ?_
  · exact insert_uncrossed (h.valid hbook) hvalid (h.uncrossed hcompleted hbook)
      (hnocross hcompleted)
  · split
    · next hid => rw [hid, hview]
    · rfl

theorem BooksSync.addMarket (h : BooksSync completed basic pending view books)
    (marketId : String) :
    BooksSync completed basic pending view
      (books.insert marketId ((books.get? marketId).getD .new)) := by
  have hbook : ∀ {marketId' book},
      (books.insert marketId ((books.get? marketId).getD .new)).get? marketId' =
          some book →
        books.get? marketId' = some book ∨ book = .new := by
    intro marketId' book hget
    rw [HashMap.get?_insert] at hget
    split at hget
    · next hm =>
        subst hm
        cases hold : books.get? marketId' with
        | none => simpa [hold, eq_comm] using hget
        | some old => exact .inl (by simpa [hold] using hget)
    · exact .inl hget
  have hafter : ∀ marketId' id, storedOrder
      (books.insert marketId ((books.get? marketId).getD .new)) marketId' id =
        storedOrder books marketId' id := by
    intro marketId' id
    rw [storedOrder_insert]
    split
    · next hm =>
        subst hm
        unfold storedOrder
        cases books.get? marketId' with
        | none => rfl
        | some old => rfl
    · rfl
  refine ⟨fun hget => ?_, fun hcompleted _ _ hget => ?_, fun hlive => ?_,
    fun hcompleted _ _ hview hopen hne => ?_⟩
  · rcases hbook hget with hold | rfl
    · exact h.valid hold
    · exact OrderBook.new_valid
  · rcases hbook hget with hold | rfl
    · exact h.uncrossed hcompleted hold
    · exact OrderBook.new_uncrossed
  · rw [hafter] at hlive
    exact h.stored hlive
  · rw [hafter]
    exact h.covered hcompleted hview hopen hne

theorem BooksSync.rebuild {log : List SequencedEvent}
    {orders : HashMap OrderId Order}
    (h : BooksSync completed basic (fun _ => False) (orderInLog log) books)
    (hlegal : LegalLog basic log)
    (horders : ∀ id, orders.get? id = orderInLog log id)
    (shuffle : Shuffle Order) :
    BooksSync completed basic (fun _ => False) (orderInLog log)
      (Replay.buildBooks shuffle orders) := by
  have hbook : ∀ {marketId book},
      (Replay.buildBooks shuffle orders).get? marketId = some book →
      book.Valid ∧ ∀ id order, book.get id = some order ↔
        orderInLog log id = some order ∧
        order.isClosed = false ∧ order.marketId.value = marketId := by
    intro marketId book hget
    simpa [hget] using buildBooks_book hlegal horders shuffle marketId
  refine ⟨fun hget => (hbook hget).1, fun hcompleted {marketId book} hget => ?_,
    fun {marketId id live} hlive => ?_, fun _ {id logged} hview hopen _ => ?_⟩
  · obtain ⟨hvalid, hstores⟩ := hbook hget
    have hold : ∀ side order, book.Resting side order → ∃ live,
        storedOrder books marketId order.orderId = some live ∧
          live.core = order.core ∧ order.isClosed = false ∧
          order.side = side := by
      intro side order hresting
      obtain ⟨hget', hside, hopen⟩ := hvalid.resting_iff.mp hresting
      obtain ⟨hview, -, rfl⟩ := (hstores _ _).mp hget'
      obtain ⟨live, hlive, hcore⟩ := h.covered hcompleted hview hopen not_false
      exact ⟨live, hlive, hcore, hopen, hside⟩
    cases hlive : books.get? marketId with
    | none =>
        intro bid ask hbid hask
        obtain ⟨live, hstored, -⟩ := hold _ _ hbid
        simp [storedOrder, hlive] at hstored
    | some old =>
        refine (h.uncrossed hcompleted hlive).of_resting
          fun side order hresting => ?_
        obtain ⟨live, hstored, hcore, hopen, rfl⟩ := hold _ _ hresting
        obtain ⟨old', hold', hget'⟩ := storedOrder_eq_some.mp hstored
        obtain rfl : old = old' := Option.some.inj (hlive.symm.trans hold')
        have hterms := Order.terms_eq_of_core hcore
        have hvalid' := h.valid hlive
        refine ⟨live, hvalid'.resting_iff.mpr ⟨?_, ?_, ?_⟩, ?_⟩
        · rwa [hvalid'.key hget']
        · simpa using congrArg Order.side hterms
        · rw [Order.isClosed_eq_of_core hcore, hopen]
        · simpa using congrArg Order.priceTicks hterms
  · obtain ⟨book, hget, hlive⟩ := storedOrder_eq_some.mp hlive
    obtain ⟨hview, -, hmarket⟩ := ((hbook hget).2 _ _).mp hlive
    exact ⟨live, hview, hmarket, rfl, fun _ => rfl⟩
  · have hsome := (buildBooks_isSome shuffle orders logged.marketId.value).mpr
      ⟨id, logged, (horders id).trans hview, hopen, rfl⟩
    obtain ⟨book, hget⟩ := Option.isSome_iff_exists.mp hsome
    exact ⟨logged, storedOrder_eq_some.mpr ⟨book, hget, ((hbook hget).2 _ _).mpr
      ⟨hview, hopen, rfl⟩⟩, rfl⟩

end Steps

end ClobApi
