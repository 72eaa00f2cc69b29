import ClobApi.Engine.BooksPresent
import ClobApi.Engine.Greedy
import Mathlib.Algebra.BigOperators.Group.List.Basic
import Mathlib.Data.List.Perm.Subperm

/-!
# Aggregated depth

`l2_snapshot` shows the best levels of the book.  Against the log it is exact as
long as the log leaves open what rests at these levels and the lots at each of
them add up to a `u64`.
-/

namespace ClobApi

open Foundation

/-- The orders of one side and price that the log leaves open in a market. -/
def openOrdersIn (log : List SequencedEvent) (marketId : String) (side : Side)
    (price : UInt64) : List Order :=
  ((accepted log).filterMap fun new => orderInLog log new.orderId).filter
    fun order =>
      order.marketId.value = marketId ∧ order.side = side ∧
        order.priceTicks = price ∧ order.isClosed = false

/-- The exact sum of what the orders have left. -/
def lotsLeft (orders : List Order) : Nat :=
  (orders.map fun order => order.remainingSizeLots.toNat).sum

/-- The rows are what the log says of one side, best price first. -/
structure ExactSide (log : List SequencedEvent) (marketId : String)
    (side : Side) (depth : Nat) (levels : List PriceLevel) : Prop where
  best : BestFirst side.Better
    (fun price => openOrdersIn log marketId side price ≠ []) depth
    (levels.map PriceLevel.price)
  count : ∀ level ∈ levels, level.orderCount =
    (openOrdersIn log marketId side level.price).length
  total : ∀ level ∈ levels, level.totalQty.toNat =
    lotsLeft (openOrdersIn log marketId side level.price)

def ExactDepth (e : Engine) (marketId : String) (depth : Nat) : Prop :=
  ∃ bids asks, e.l2Snapshot marketId depth = some (bids, asks) ∧
    ExactSide e.log marketId .buy depth bids ∧
    ExactSide e.log marketId .sell depth asks

/-! ## The rows of the book -/

namespace OrderBook

def l2Side (book : OrderBook) : Side → Nat → List PriceLevel
  | .buy => book.l2Bids
  | .sell => book.l2Asks

theorem l2Side_eq (book : OrderBook) (side : Side) (depth : Nat) :
    book.l2Side side depth =
      ((book.pricesByPriority side).take depth).map fun price =>
        book.priceLevel (price, book.ordersAtPrice price side) := by
  cases side with
  | buy =>
      simp only [l2Side, l2Bids, pricesByPriority, bidPricesDesc,
        QueueMap.toList_eq_map_keys, ← List.map_reverse, ← List.map_take,
        List.map_map]
      rfl
  | sell =>
      simp only [l2Side, l2Asks, pricesByPriority, askPricesAsc,
        QueueMap.toList_eq_map_keys, ← List.map_take, List.map_map]
      rfl

theorem foldl_add_toNat (sizes : List UInt64) (start : UInt64) :
    (sizes.foldl (· + ·) start).toNat =
      (start.toNat + (sizes.map UInt64.toNat).sum) % UInt64.size := by
  induction sizes generalizing start with
  | nil => exact (Nat.mod_eq_of_lt start.toNat_lt).symm
  | cons size sizes ih =>
      rw [List.foldl_cons, ih, UInt64.toNat_add, List.map_cons, List.sum_cons,
        Nat.mod_add_mod, Nat.add_assoc]

theorem priceLevel_totalQty (book : OrderBook) (side : Side) (price : UInt64) :
    (book.priceLevel (price, book.ordersAtPrice price side)).totalQty.toNat =
      lotsLeft (book.restingAt side price) % UInt64.size := by
  refine (foldl_add_toNat _ _).trans ?_
  rw [UInt64.toNat_zero, Nat.zero_add, List.map_map]
  rfl

end OrderBook

/-! ## The book and the log at one price -/

def Order.lots (order : Order) : OrderId × Nat :=
  (order.orderId, order.remainingSizeLots.toNat)

theorem lotsLeft_congr {orders orders' : List Order}
    (h : (orders.map Order.lots).Perm (orders'.map Order.lots)) :
    lotsLeft orders = lotsLeft orders' := by
  have hlots := (h.map Prod.snd).sum_eq
  rwa [List.map_map, List.map_map] at hlots

section Logged

variable {strict : Prop} {log : List SequencedEvent} {marketId : String}
  {side : Side} {price : UInt64}

theorem LegalLog.mem_openOrdersIn (h : LegalLog strict log) {order : Order} :
    order ∈ openOrdersIn log marketId side price ↔
      orderInLog log order.orderId = some order ∧
        order.marketId.value = marketId ∧ order.side = side ∧
        order.priceTicks = price ∧ order.isClosed = false := by
  unfold openOrdersIn
  rw [List.mem_filter, List.mem_filterMap, decide_eq_true_eq]
  refine and_congr_left fun _ => ⟨?_, fun hview => ?_⟩
  · rintro ⟨new, -, hview⟩
    rwa [(h.loggedOrder hview).key]
  · obtain ⟨new, hmem, hid, -⟩ := orderInLog_accepted hview
    exact ⟨new, hmem, hid ▸ hview⟩

theorem LegalLog.openOrdersIn_nodup (h : LegalLog strict log) :
    ((openOrdersIn log marketId side price).map Order.lots).Nodup := by
  refine List.Nodup.of_map Prod.fst ?_
  rw [List.map_map]
  refine List.pairwise_map.mpr (List.Pairwise.filter _ ?_)
  refine List.Pairwise.filterMap _ ?_ h.accepted_pairwise
  intro new new' hne order hview order' hview'
  have hkey := (h.loggedOrder hview).key
  have hkey' := (h.loggedOrder hview').key
  exact fun hsame => hne.2 (hkey.symm.trans (hsame.trans hkey'))

end Logged

section Synced

variable {basic : Prop} {e : Engine} {book : OrderBook} {marketId : String}
  {side : Side} {price : UInt64}

theorem OrderBook.Valid.restingAt_nodup (hvalid : book.Valid) :
    ((book.restingAt side price).map Order.lots).Nodup := by
  refine List.Nodup.of_map Prod.fst ?_
  rw [List.map_map]
  have hids := hvalid.queue_nodup price side
  rwa [← hvalid.map_restingAt] at hids

theorem OrderBook.Valid.length_restingAt (hvalid : book.Valid) :
    ((book.restingAt side price).map Order.lots).length =
      (book.ordersAtPrice price side).length := by
  rw [← hvalid.map_restingAt, List.length_map, List.length_map]

theorem lots_eq_of_facts {order order' : Order}
    (h : order.facts = order'.facts) : order.lots = order'.lots := by
  have hid := congrArg Order.orderId (Order.terms_eq_of_facts h)
  simp only [Order.terms_orderId] at hid
  unfold Order.lots
  rw [hid, Order.remainingSizeLots_eq_of_facts h]

theorem Engine.Inv.openOrdersIn_subperm (h : e.Inv True basic noOrder)
    (hbook : e.books.get? marketId = some book) (side : Side)
    (price : UInt64) :
    ((openOrdersIn e.log marketId side price).map Order.lots).Subperm
      ((book.restingAt side price).map Order.lots) := by
  have hvalid := h.sync.valid hbook
  refine List.Nodup.subperm h.legal.openOrdersIn_nodup fun lots hlots => ?_
  obtain ⟨logged, hlogged, rfl⟩ := List.mem_map.mp hlots
  obtain ⟨hview, hmarket, hside, hprice, hopen⟩ :=
    h.legal.mem_openOrdersIn.mp hlogged
  obtain ⟨live, hlive, hcore⟩ :=
    h.sync.covered trivial hview hopen fun hpending => hpending
  rw [hmarket] at hlive
  obtain ⟨book', hbook', hget⟩ := storedOrder_eq_some.mp hlive
  obtain rfl := Option.some.inj (hbook.symm.trans hbook')
  have hfacts := Order.facts_eq_of_core hcore
  have hterms := Order.terms_eq_of_facts hfacts
  have hside' : live.side = logged.side := by
    simpa using congrArg Order.side hterms
  have hprice' : live.priceTicks = logged.priceTicks := by
    simpa using congrArg Order.priceTicks hterms
  refine List.mem_map.mpr ⟨live, hvalid.mem_restingAt.mpr ?_,
    lots_eq_of_facts hfacts⟩
  rw [hvalid.key hget]
  exact ⟨hget, hside'.trans hside, hprice'.trans hprice,
    (Order.isClosed_eq_of_core hcore).trans hopen⟩

def AllOpenIn (log : List SequencedEvent) (orders : List Order) : Prop :=
  ∀ order ∈ orders, ∃ logged, orderInLog log order.orderId = some logged ∧
    logged.isClosed = false

theorem Engine.Inv.openOrdersIn_perm_iff (h : e.Inv True basic noOrder)
    (hbook : e.books.get? marketId = some book) :
    ((openOrdersIn e.log marketId side price).map Order.lots).Perm
        ((book.restingAt side price).map Order.lots) ↔
      AllOpenIn e.log (book.restingAt side price) := by
  have hvalid := h.sync.valid hbook
  constructor
  · intro hperm order horder
    have hlots : order.lots ∈
        (openOrdersIn e.log marketId side price).map Order.lots :=
      hperm.mem_iff.mpr (List.mem_map_of_mem horder)
    obtain ⟨logged, hlogged, hsame⟩ := List.mem_map.mp hlots
    obtain ⟨hview, -, -, -, hopen⟩ := h.legal.mem_openOrdersIn.mp hlogged
    have hid : logged.orderId = order.orderId := congrArg Prod.fst hsame
    exact ⟨logged, hid ▸ hview, hopen⟩
  · intro hall
    refine (h.openOrdersIn_subperm hbook side price).antisymm ?_
    refine List.Nodup.subperm hvalid.restingAt_nodup fun lots hlots => ?_
    obtain ⟨live, hlive, rfl⟩ := List.mem_map.mp hlots
    obtain ⟨logged, hview, hopen⟩ := hall live hlive
    obtain ⟨hget, hside, hprice, -⟩ := hvalid.mem_restingAt.mp hlive
    obtain ⟨logged', hview', hmatches⟩ :=
      h.sync.stored (storedOrder_eq_some.mpr ⟨book, hbook, hget⟩)
    obtain rfl := Option.some.inj (hview.symm.trans hview')
    have hterms := Order.terms_eq_of_facts hmatches.facts
    have hside' : logged.side = live.side := by
      simpa using congrArg Order.side hterms
    have hprice' : logged.priceTicks = live.priceTicks := by
      simpa using congrArg Order.priceTicks hterms
    refine List.mem_map.mpr ⟨logged, h.legal.mem_openOrdersIn.mpr ?_,
      lots_eq_of_facts hmatches.facts⟩
    rw [(h.legal.loggedOrder hview).key]
    exact ⟨hview, hmatches.logged_market, hside'.trans hside,
      hprice'.trans hprice, hopen⟩

/-! ## One side -/

/-- The log leaves open what rests at a price, and a `u64` holds its lots. -/
structure Addable (log : List SequencedEvent) (orders : List Order) :
    Prop where
  allOpen : AllOpenIn log orders
  fits : lotsLeft orders < UInt64.size

theorem Engine.Inv.addable_of_exactSide (h : e.Inv True basic noOrder)
    (hbook : e.books.get? marketId = some book) {side : Side} {depth : Nat}
    (hexact : ExactSide e.log marketId side depth (book.l2Side side depth))
    {price : UInt64}
    (hprice : price ∈ (book.pricesByPriority side).take depth) :
    Addable e.log (book.restingAt side price) := by
  have hvalid := h.sync.valid hbook
  rw [OrderBook.l2Side_eq] at hexact
  have hlevel := List.mem_map_of_mem
    (f := fun price =>
      book.priceLevel (price, book.ordersAtPrice price side)) hprice
  have hcount : (book.ordersAtPrice price side).length =
      (openOrdersIn e.log marketId side price).length :=
    hexact.count _ hlevel
  have htotal : lotsLeft (book.restingAt side price) % UInt64.size =
      lotsLeft (openOrdersIn e.log marketId side price) := by
    rw [← book.priceLevel_totalQty]
    exact hexact.total _ hlevel
  have hperm := (h.openOrdersIn_subperm hbook side price).perm_of_length_le
    (Nat.le_of_eq (by rw [hvalid.length_restingAt, List.length_map, hcount]))
  refine ⟨(h.openOrdersIn_perm_iff hbook).mp hperm, ?_⟩
  rw [← lotsLeft_congr hperm, ← htotal]
  exact Nat.mod_lt _ (by decide)

theorem Engine.Inv.exactSide_of_addable (h : e.Inv True basic noOrder)
    (hbook : e.books.get? marketId = some book) {side : Side} {depth : Nat}
    (hall : ∀ price ∈ (book.pricesByPriority side).take depth,
      Addable e.log (book.restingAt side price)) :
    ExactSide e.log marketId side depth (book.l2Side side depth) := by
  have hvalid := h.sync.valid hbook
  rw [OrderBook.l2Side_eq]
  have hperm : ∀ price ∈ (book.pricesByPriority side).take depth,
      ((openOrdersIn e.log marketId side price).map Order.lots).Perm
        ((book.restingAt side price).map Order.lots) := fun price hprice =>
    (h.openOrdersIn_perm_iff hbook).mpr (hall price hprice).allOpen
  have hlength : ∀ price ∈ (book.pricesByPriority side).take depth,
      (openOrdersIn e.log marketId side price).length =
        (book.ordersAtPrice price side).length := by
    intro price hprice
    rw [← hvalid.length_restingAt, ← (hperm price hprice).length_eq,
      List.length_map]
  refine ⟨?_, ?_, ?_⟩
  · rw [List.map_map]
    have hprices : (book.pricesByPriority side).take depth =
        ((book.pricesByPriority side).take depth).map
          (PriceLevel.price ∘ fun price =>
            book.priceLevel (price, book.ordersAtPrice price side)) :=
      (List.map_id' _).symm
    rw [← hprices]
    refine bestFirst_take (book.pricesByPriority_sorted side) ?_ ?_
    · intro price hopen
      have hlength := (h.openOrdersIn_subperm hbook side price).length_le
      rw [hvalid.length_restingAt, List.length_map] at hlength
      rw [hvalid.mem_pricesByPriority]
      rw [← List.length_pos_iff] at hopen ⊢
      omega
    · intro price hprice
      have hqueue := (hvalid.mem_pricesByPriority side price).mp
        (List.mem_of_mem_take hprice)
      rw [← List.length_pos_iff] at hqueue ⊢
      rwa [hlength price hprice]
  · intro level hlevel
    obtain ⟨price, hprice, rfl⟩ := List.mem_map.mp hlevel
    exact (hlength price hprice).symm
  · intro level hlevel
    obtain ⟨price, hprice, rfl⟩ := List.mem_map.mp hlevel
    rw [book.priceLevel_totalQty, Nat.mod_eq_of_lt (hall price hprice).fits]
    exact (lotsLeft_congr (hperm price hprice)).symm

theorem Engine.Inv.exactSide_iff (h : e.Inv True basic noOrder)
    (hbook : e.books.get? marketId = some book) (side : Side) (depth : Nat) :
    ExactSide e.log marketId side depth (book.l2Side side depth) ↔
      ∀ price ∈ (book.pricesByPriority side).take depth,
        Addable e.log (book.restingAt side price) :=
  ⟨fun hexact _ hprice => h.addable_of_exactSide hbook hexact hprice,
    h.exactSide_of_addable hbook⟩

/-- The two sides of a snapshot are those of the market's book. -/
theorem Engine.Inv.exactDepth_iff (h : e.Inv True basic noOrder)
    (hbook : e.books.get? marketId = some book) (depth : Nat) :
    ExactDepth e marketId depth ↔
      ∀ side, ∀ price ∈ (book.pricesByPriority side).take depth,
        Addable e.log (book.restingAt side price) := by
  have hsnapshot : e.l2Snapshot marketId depth =
      some (book.l2Side .buy depth, book.l2Side .sell depth) := by
    unfold Engine.l2Snapshot
    rw [hbook]
    rfl
  constructor
  · rintro ⟨bids, asks, hrows, hbuy, hsell⟩ side
    rw [hsnapshot, Option.some.injEq, Prod.mk.injEq] at hrows
    obtain ⟨rfl, rfl⟩ := hrows
    cases side with
    | buy => exact (h.exactSide_iff hbook .buy depth).mp hbuy
    | sell => exact (h.exactSide_iff hbook .sell depth).mp hsell
  · intro hall
    exact ⟨_, _, hsnapshot, (h.exactSide_iff hbook .buy depth).mpr (hall .buy),
      (h.exactSide_iff hbook .sell depth).mpr (hall .sell)⟩

end Synced

/-! ## Runs -/

section Runs

variable {crypto : Crypto} {ops : List Op} {e : Engine}

/--
After completed calls the depth of a market is exact exactly if its book is
there and the orders at the levels shown are open in the log and add up.
-/
theorem l2Snapshot_exact_iff (h : Run (CompletedStep crypto) .new ops e)
    (marketId : String) (depth : Nat) :
    ExactDepth e marketId depth ↔
      ∃ book, e.books.get? marketId = some book ∧
        ∀ side, ∀ price ∈ (book.pricesByPriority side).take depth,
          Addable e.log (book.restingAt side price) := by
  have hinv := CompletedStep.run_inv h
  constructor
  · intro hexact
    obtain ⟨bids, asks, hsnapshot, -⟩ := id hexact
    obtain ⟨book, hbook, -⟩ := Option.map_eq_some_iff.mp hsnapshot
    exact ⟨book, hbook, (hinv.exactDepth_iff hbook depth).mp hexact⟩
  · rintro ⟨book, hbook, hall⟩
    exact (hinv.exactDepth_iff hbook depth).mpr hall

theorem l2Snapshot_exact_iff_fits (h : Run (CompletedStep crypto) .new ops e)
    (htrading : ∀ op ∈ ops, op.isTrading = true) {marketId : String}
    {book : OrderBook} (hbook : e.books.get? marketId = some book)
    (depth : Nat) :
    ExactDepth e marketId depth ↔
      ∀ side, ∀ price ∈ (book.pricesByPriority side).take depth,
        lotsLeft (book.restingAt side price) < UInt64.size := by
  have hstep := h.mono fun _ _ _ hstep => hstep.1
  have hinv := TradingStep.run_inv (Step.run_trading hstep htrading)
  have hvalid := hinv.sync.valid hbook
  have hopen : ∀ side price, AllOpenIn e.log (book.restingAt side price) := by
    intro side price order horder
    obtain ⟨hget, -, -, hlive⟩ := hvalid.mem_restingAt.mp horder
    obtain ⟨logged, hview, hmatches⟩ :=
      hinv.sync.stored (storedOrder_eq_some.mpr ⟨book, hbook, hget⟩)
    refine ⟨logged, hview, ?_⟩
    rw [Order.isClosed_eq_of_core (hmatches.core trivial), hlive]
  rw [(CompletedStep.run_inv h).exactDepth_iff hbook depth]
  constructor
  · exact fun hall side price hprice => (hall side price hprice).fits
  · exact fun hfits side price hprice =>
      ⟨hopen side price, hfits side price hprice⟩

end Runs

theorem l2Snapshot_exact_iff_traded :
    ExactDepth (Sample.after Sample.traded) "BTC-USD" 10 := by
  have hresting : ((Sample.after Sample.traded).books.get? "BTC-USD").map
      (fun book => (book.pricesByPriority .buy, book.pricesByPriority .sell,
        (book.restingAt .sell 100).map Order.lots)) =
        some ([], [100], [(⟨"ask"⟩, 6)]) := by
    decide +kernel
  obtain ⟨book, hbook, hrows⟩ := Option.map_eq_some_iff.mp hresting
  simp only [Prod.mk.injEq] at hrows
  obtain ⟨hbuy, hsell, hlots⟩ := hrows
  refine (l2Snapshot_exact_iff (BasicStep.run_completed Sample.traded_run)
    "BTC-USD" 10).mpr ⟨book, hbook, fun side price hprice => ?_⟩
  cases side with
  | buy =>
      rw [hbuy] at hprice
      cases hprice
  | sell =>
      rw [hsell] at hprice
      obtain rfl := List.mem_singleton.mp hprice
      refine ⟨fun order horder => ?_, ?_⟩
      · have hmem := List.mem_map_of_mem (f := Order.lots) horder
        rw [hlots, List.mem_singleton] at hmem
        have hid : order.orderId = ⟨"ask"⟩ := congrArg Prod.fst hmem
        rw [hid, Sample.traded_log.1]
        exact ⟨_, rfl, rfl⟩
      · have hsum := congrArg (fun lots => (lots.map Prod.snd).sum) hlots
        rw [List.map_map] at hsum
        exact Nat.lt_of_le_of_lt (Nat.le_of_eq hsum) (by decide)

/-! ## A level that wraps -/

namespace Sample

def hugeAskHash : Bytes32 :=
  #v[157, 2, 64, 25, 24, 84, 207, 56, 187, 149, 32, 10, 183, 83, 35, 53, 129,
    52, 211, 216, 123, 117, 84, 4, 246, 171, 241, 83, 24, 158, 154, 1]

def hugeAsk : SignedOrder :=
  { ask with
    clientOrderId := "huge-1"
    sizeLots := 9223372036854775808
    salt := 10
    signature :=
      #v[28, 203, 234, 102, 148, 172, 76, 126, 75, 21, 229, 113, 139, 162, 137,
        10, 96, 45, 18, 85, 39, 232, 227, 93, 111, 164, 108, 160, 143, 112, 183,
        176, 88, 84, 129, 18, 44, 134, 67, 229, 107, 81, 169, 54, 195, 149, 217,
        140, 244, 134, 40, 135, 54, 65, 50, 74, 188, 240, 240, 137, 160, 27, 84,
        2] }

def otherHugeAskHash : Bytes32 :=
  #v[211, 114, 47, 147, 110, 141, 31, 222, 26, 120, 149, 206, 222, 237, 55, 232,
    218, 38, 76, 55, 97, 154, 154, 211, 194, 165, 224, 86, 238, 127, 149, 142]

def otherHugeAsk : SignedOrder :=
  { hugeAsk with
    clientOrderId := "huge-2"
    traderId := bid.traderId
    salt := 11
    traderPubkey := bidPubkey
    signature :=
      #v[153, 172, 190, 145, 128, 170, 75, 213, 45, 97, 163, 169, 190, 215, 25,
        24, 215, 128, 232, 110, 161, 147, 20, 91, 195, 93, 34, 229, 54, 26, 118,
        45, 61, 123, 56, 241, 12, 177, 238, 67, 37, 190, 238, 73, 224, 219, 106,
        252, 112, 113, 249, 228, 49, 223, 177, 69, 97, 247, 235, 90, 88, 102,
        82, 4] }

def hugeCrypto : Crypto where
  sha256 := fun bytes =>
    if bytes = hugeAsk.canonicalBytes then hugeAskHash
    else if bytes = otherHugeAsk.canonicalBytes then otherHugeAskHash
    else .replicate 32 0
  validPublicKey := fun key => key = askPubkey ∨ key = bidPubkey
  verify := fun key message signature =>
    (key, message, signature) = (askPubkey, hugeAskHash, hugeAsk.signature) ∨
      (key, message, signature) =
        (bidPubkey, otherHugeAskHash, otherHugeAsk.signature)

def hugeAsks : List Op :=
  [.addMarket market, .processOrder hugeAsk askEnv,
    .processOrder otherHugeAsk bidEnv]

theorem hugeAsks_run :
    Run (BasicStep hugeCrypto) .new hugeAsks
      (Engine.new.applyAll hugeCrypto hugeAsks) := by
  have hask : (Engine.new.applyAll hugeCrypto [.addMarket market]).Admits
      (.processOrder hugeAsk askEnv) := nofun
  have hids : (accepted (Engine.new.applyAll hugeCrypto
      [.addMarket market, .processOrder hugeAsk askEnv]).log).map
        Order.orderId = [⟨"ask"⟩] := by
    decide +kernel
  have hother : (Engine.new.applyAll hugeCrypto
      [.addMarket market, .processOrder hugeAsk askEnv]).Admits
        (.processOrder otherHugeAsk bidEnv) := by
    intro order horder hid
    have hmem := List.mem_map_of_mem (f := Order.orderId) horder
    rw [hids, hid] at hmem
    revert hmem
    decide
  exact .next (.next (.next .start ⟨⟨trivial, rfl⟩, rfl⟩) ⟨⟨hask, rfl⟩, rfl⟩)
    ⟨⟨hother, rfl⟩, rfl⟩

/-- Two orders of 2^63 lots rest at one price, and the row shows none. -/
theorem l2Snapshot_wraps :
    ¬ ∀ (crypto : Crypto) (ops : List Op) (e : Engine),
      Run (BasicStep crypto) .new ops e →
        ∀ marketId depth, (e.markets.get? marketId).isSome = true →
          ExactDepth e marketId depth := by
  intro h
  obtain ⟨hregistered, hrows, hlots⟩ :
      ((Engine.new.applyAll hugeCrypto hugeAsks).markets.get?
          "BTC-USD").isSome = true ∧
        (Engine.new.applyAll hugeCrypto hugeAsks).l2Snapshot "BTC-USD" 10 =
          some ([], [⟨100, 0, 2⟩]) ∧
        lotsLeft (openOrdersIn (Engine.new.applyAll hugeCrypto hugeAsks).log
          "BTC-USD" .sell 100) = 2 ^ 64 := by
    decide +kernel
  obtain ⟨bids, asks, hsnapshot, -, hsell⟩ :=
    h _ _ _ hugeAsks_run "BTC-USD" 10 hregistered
  rw [hrows, Option.some.injEq, Prod.mk.injEq] at hsnapshot
  rw [← hsnapshot.2] at hsell
  have htotal := hsell.total ⟨100, 0, 2⟩ (.head _)
  rw [hlots] at htotal
  cases htotal

end Sample

end ClobApi
