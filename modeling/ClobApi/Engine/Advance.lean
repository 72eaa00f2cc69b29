import ClobApi.Engine.Filing

/-!
# Orders in the books only move forward

An order that a book stores stays there until a recovery rebuilds the books.  It
keeps its terms, what is filled of it never shrinks, and it closes for good: by
a fill of its last lots or by a cancellation that the log holds.
-/

namespace ClobApi

open Foundation

def Concluded (log : List SequencedEvent) (order : Order) : Prop :=
  order.filledSizeLots = order.origSizeLots ∨ ∃ se ∈ log, ∃ reason,
    se.event = .orderCancelled order.orderId order.orderHash reason

/-- How a stored order may go on while the log becomes `log`. -/
structure Order.Advances (log : List SequencedEvent)
    (live live' : Order) : Prop where
  terms : live'.terms = live.terms
  filled : live.filledSizeLots ≤ live'.filledSizeLots
  final : live.isClosed = true → live' = live
  cause : live.isClosed = false → live'.isClosed = true → Concluded log live'

section Advances

variable {log log' : List SequencedEvent} {live live' live'' : Order}

theorem Concluded.mono (h : Concluded log live) (hlog : log <+: log') :
    Concluded log' live := by
  rcases h with hfilled | ⟨se, hse, hcancelled⟩
  · exact .inl hfilled
  · exact .inr ⟨se, hlog.subset hse, hcancelled⟩

theorem Order.Advances.refl (log : List SequencedEvent) (live : Order) :
    live.Advances log live :=
  ⟨rfl, UInt64.le_refl _, fun _ => rfl, fun hopen hclosed => by
    simp [hopen] at hclosed⟩

theorem Order.Advances.trans (h : live.Advances log live')
    (h' : live'.Advances log' live'') (hlog : log <+: log') :
    live.Advances log' live'' where
  terms := h'.terms.trans h.terms
  filled := UInt64.le_trans h.filled h'.filled
  final := by
    intro hclosed
    obtain rfl := h.final hclosed
    exact h'.final hclosed
  cause := by
    intro hopen hclosed
    cases hmid : live'.isClosed with
    | false => exact h'.cause hmid hclosed
    | true =>
        obtain rfl := h'.final hmid
        exact (h.cause hopen hmid).mono hlog

theorem Order.Advances.fill (log : List SequencedEvent) {qty : UInt64}
    (hopen : live.isClosed = false) (hconsistent : live.Consistent)
    (hqty : qty ≤ live.remainingSizeLots) (seqId : Nat) :
    live.Advances log (applyFillTo live qty seqId) where
  terms := rfl
  filled := by
    rw [UInt64.le_iff_toNat_le, applyFillTo_filledSizeLots,
      filled_add_toNat hconsistent.filled_le hqty]
    omega
  final := by
    intro hclosed
    simp [hopen] at hclosed
  cause := by
    intro _ hclosed
    have hle := applyFillTo_filled_le seqId hconsistent.filled_le hqty
    rw [applyFillTo_isClosed_iff, Order.remainingSizeLots_eq_zero_iff hle]
      at hclosed
    exact .inl hclosed

end Advances

/-! ## Matching -/

section Matching

variable {seqId : Nat} {nowMs : UInt64} {st st' : MatchState} {id : OrderId}
  {live : Order}

theorem FillStep.advances (h : FillStep seqId nowMs st st') (hvalid : st.Valid)
    (log : List SequencedEvent) (hlive : st.book.get id = some live) :
    ∃ live', st'.book.get id = some live' ∧ live.Advances log live' := by
  cases h with
  | @fill maker meets trader =>
      obtain ⟨hget, -, hopen⟩ := hvalid.get_maker meets
      have hbook : (st.fillAgainst maker seqId nowMs).book =
          st.book.settle maker.orderId fun maker' =>
            applyFillTo maker' (st.fillQty maker) seqId := rfl
      rw [hbook, OrderBook.get_settle]
      by_cases hid : id = maker.orderId
      · subst hid
        obtain rfl := Option.some.inj (hget.symm.trans hlive)
        rw [if_pos rfl, hget]
        exact ⟨_, rfl, .fill log hopen (hvalid.book.consistent hget)
          MatchState.fillQty_le_maker seqId⟩
      · rw [if_neg hid]
        exact ⟨live, hlive, .refl log live⟩

theorem FillRun.advances (h : FillRun seqId nowMs st st') (hvalid : st.Valid)
    (log : List SequencedEvent) (hlive : st.book.get id = some live) :
    ∃ live', st'.book.get id = some live' ∧ live.Advances log live' := by
  induction h with
  | refl => exact ⟨live, hlive, .refl log live⟩
  | tail hrun hstep ih =>
      obtain ⟨mid, hmid, hadvances⟩ := ih
      obtain ⟨live', hlive', hlast⟩ :=
        hstep.advances (FillRun.valid hrun hvalid) log hmid
      exact ⟨live', hlive', hadvances.trans hlast (List.prefix_refl _)⟩

end Matching

/-! ## Every operation but a recovery -/

section Apply

variable {completed basic : Prop} {crypto : Crypto} {e e' : Engine}
  {signed : SignedOrder} {env : CallEnv} {marketId : String} {id : OrderId}
  {live live' : Order} {op : Op}

theorem get_residualBook (st : MatchState) (id : OrderId) :
    st.residualBook.get id =
      if !st.taker.isClosed ∧ st.taker.remainingSizeLots > 0 ∧
        id = st.taker.orderId then some st.taker
      else st.book.get id := by
  unfold MatchState.residualBook
  by_cases hfiled : !st.taker.isClosed ∧ st.taker.remainingSizeLots > 0
  · rw [if_pos hfiled, OrderBook.get_insert]
    simp only [hfiled, true_and]
  · rw [if_neg hfiled, if_neg fun h => hfiled ⟨h.1, h.2.1⟩]

theorem Engine.Inv.stored_ne (h : e.Inv completed basic noOrder)
    (hfresh : e.Admits (.processOrder signed env))
    (hstored : storedOrder e.books marketId id = some live) :
    id ≠ env.newOrderId := by
  rintro rfl
  obtain ⟨logged, hlogged, -⟩ := h.sync.stored hstored
  rw [orderInLog_eq_none hfresh] at hlogged
  cases hlogged

theorem Engine.Executed.advances {book : OrderBook} {st : MatchState}
    (h : e.Inv completed basic noOrder)
    (hsubmits : Engine.Submits crypto e signed env)
    (hfresh : e.Admits (.processOrder signed env))
    (hbook : e.books.get? signed.marketId.value = some book)
    (hst : matchOrder book
      (buildOrder crypto signed env e.sequencer.peekNextSeqId)
      e.sequencer.peekNextSeqId env.nowMs = st)
    (hexecuted : e.Executed crypto signed env st e')
    (hstored : storedOrder e.books marketId id = some live) :
    ∃ live', storedOrder e'.books marketId id = some live' ∧
      live.Advances e'.log live' := by
  unfold storedOrder at hstored ⊢
  rw [hexecuted.books]
  by_cases hmarket : marketId = signed.marketId.value
  · subst hmarket
    rw [if_pos rfl]
    have hstart := matching_start h hsubmits hfresh hbook
    obtain ⟨mid, hrun, hend⟩ :=
      matchOrder_run hstart.valid e.sequencer.peekNextSeqId env.nowMs
    rw [hst] at hend
    obtain ⟨hsameBook, -, hterms⟩ := hend.same
    rw [hbook] at hstored
    obtain ⟨live', hlive', hadvances⟩ :=
      hrun.advances hstart.valid e'.log hstored
    have hne : id ≠ st.taker.orderId := by
      have hid : st.taker.orderId = env.newOrderId :=
        congrArg Order.orderId (hterms.trans hrun.taker_terms)
      rw [hid]
      exact h.stored_ne hfresh (storedOrder_eq_some.mpr ⟨book, hbook, hstored⟩)
    refine ⟨live', ?_, hadvances⟩
    rw [Option.bind_some, get_residualBook, if_neg fun hfiled => hne hfiled.2.2,
      hsameBook]
    exact hlive'
  · rw [if_neg hmarket]
    exact ⟨live, hstored, .refl _ live⟩

theorem Engine.Cancels.get_cancel {orderId : OrderId} {traderId : String}
    {book : OrderBook} {order : Order}
    (h : e.Cancels orderId traderId marketId book order) (id : OrderId) :
    (book.cancel orderId).1.get id =
      if id = orderId then some { order with status := .cancelled }
      else book.get id := by
  rw [OrderBook.cancel_eq_settle h.stored h.active, OrderBook.get_settle]
  split
  · next hid => rw [hid, h.stored, Option.map_some]
  · rfl

theorem processCancel_advances (orderId : OrderId) (traderId : String)
    (wall : Nat → UInt64) (h : e.Inv completed basic noOrder)
    (hstored : storedOrder e.books marketId id = some live) :
    ∃ live', storedOrder (e.processCancel orderId traderId wall).1.books
        marketId id = some live' ∧
      live.Advances (e.processCancel orderId traderId wall).1.log live' := by
  obtain ⟨hsame, -⟩ | ⟨name, book, order, hcancels⟩ :=
    Engine.processCancel_cases e orderId traderId wall
  · rw [hsame]
    exact ⟨live, hstored, .refl _ live⟩
  rw [hcancels.processCancel_eq, Engine.afterCancel,
    storedOrder_put hcancels.listed hcancels.get_cancel]
  split
  · next hhere =>
      obtain ⟨rfl, rfl⟩ := hhere
      obtain ⟨book', hbook', hlive⟩ := storedOrder_eq_some.mp hstored
      obtain rfl := Option.some.inj (hcancels.listed.symm.trans hbook')
      obtain rfl := Option.some.inj (hcancels.stored.symm.trans hlive)
      have hkey := (h.sync.valid hcancels.listed).key hcancels.stored
      refine ⟨_, rfl, rfl, UInt64.le_refl _, fun hclosed => ?_, fun _ _ => ?_⟩
      · rw [hcancels.active] at hclosed
        cases hclosed
      · exact .inr ⟨_, List.mem_append_right _ (.head _), .traderRequest,
          by rw [hkey]⟩
  · exact ⟨live, hstored, .refl _ live⟩

theorem advances_apply (h : e.Inv completed basic noOrder)
    (hadmits : e.Admits op)
    (hother : ∀ shuffle events, op ≠ .restoreFromEvents shuffle events)
    (hstored : storedOrder e.books marketId id = some live) :
    ∃ live', storedOrder (e.apply crypto op).1.books marketId id = some live' ∧
      live.Advances (e.apply crypto op).1.log live' := by
  cases op with
  | addMarket config =>
      exact ⟨live, (storedOrder_of_bookAt (bookAt_addMarket e config marketId)
        id).trans hstored, .refl _ live⟩
  | processOrder signed env =>
      by_cases hsubmits : Engine.Submits crypto e signed env
      · cases hbook : e.books.get? signed.marketId.value with
        | none =>
            simp only [Engine.apply, hsubmits.panics hbook]
            exact ⟨live, hstored, .refl _ live⟩
        | some book =>
            obtain ⟨e', hdone, hexecuted⟩ := hsubmits.completes hbook rfl rfl
            simp only [Engine.apply, hdone]
            exact hexecuted.advances h hsubmits hadmits hbook rfl hstored
      · simp only [Engine.apply, (Engine.processOrder_rejects hsubmits).1]
        exact ⟨live, hstored, .refl _ live⟩
  | processCancel orderId traderId wall =>
      exact processCancel_advances orderId traderId wall h hstored
  | pauseMarket name triggeredBy wall =>
      exact ⟨live, (storedOrder_of_bookAt (bookAt_switchMarket e name _ _ _ wall
        marketId) id).trans hstored, .refl _ live⟩
  | resumeMarket name triggeredBy wall =>
      exact ⟨live, (storedOrder_of_bookAt (bookAt_switchMarket e name _ _ _ wall
        marketId) id).trans hstored, .refl _ live⟩
  | cancelAllOrders name wall =>
      simp only [Engine.apply, cancelAllOrders_books]
      exact ⟨live, hstored, .refl _ live⟩
  | restoreFromEvents shuffle events => exact absurd rfl (hother _ _)

theorem Engine.Executed.stored {book : OrderBook} {st : MatchState}
    (h : e.Inv completed basic noOrder)
    (hsubmits : Engine.Submits crypto e signed env)
    (hfresh : e.Admits (.processOrder signed env))
    (hbook : e.books.get? signed.marketId.value = some book)
    (hst : matchOrder book
      (buildOrder crypto signed env e.sequencer.peekNextSeqId)
      e.sequencer.peekNextSeqId env.nowMs = st)
    (hexecuted : e.Executed crypto signed env st e')
    (hstored : storedOrder e'.books marketId id = some live)
    (hclosed : live.isClosed = true) :
    ∃ old, storedOrder e.books marketId id = some old := by
  unfold storedOrder at hstored ⊢
  rw [hexecuted.books] at hstored
  split at hstored
  · next hmarket =>
      subst hmarket
      rw [Option.bind_some, get_residualBook] at hstored
      split at hstored
      · next hfiled =>
          obtain rfl := Option.some.inj hstored
          simp [hclosed] at hfiled
      · have hmatched := hsubmits.matched h hfresh hbook hst hexecuted
        rw [hbook]
        exact Option.isSome_iff_exists.mp
          ((hmatched.stored id).symm.trans (Option.isSome_of_eq_some hstored))
  · exact ⟨live, hstored⟩

theorem stored_apply (h : e.Inv completed basic noOrder)
    (hadmits : e.Admits op)
    (hother : ∀ shuffle events, op ≠ .restoreFromEvents shuffle events)
    (hstored : storedOrder (e.apply crypto op).1.books marketId id = some live)
    (hclosed : live.isClosed = true) :
    ∃ old, storedOrder e.books marketId id = some old := by
  cases op with
  | addMarket config =>
      exact ⟨live, (storedOrder_of_bookAt (bookAt_addMarket e config marketId)
        id).symm.trans hstored⟩
  | processOrder signed env =>
      by_cases hsubmits : Engine.Submits crypto e signed env
      · cases hbook : e.books.get? signed.marketId.value with
        | none =>
            simp only [Engine.apply, hsubmits.panics hbook] at hstored
            exact ⟨live, hstored⟩
        | some book =>
            obtain ⟨e', hdone, hexecuted⟩ := hsubmits.completes hbook rfl rfl
            simp only [Engine.apply, hdone] at hstored
            exact hexecuted.stored h hsubmits hadmits hbook rfl hstored hclosed
      · simp only [Engine.apply, (Engine.processOrder_rejects hsubmits).1]
          at hstored
        exact ⟨live, hstored⟩
  | processCancel orderId traderId wall =>
      simp only [Engine.apply] at hstored
      obtain ⟨hsame, -⟩ | ⟨name, book, order, hcancels⟩ :=
        Engine.processCancel_cases e orderId traderId wall
      · exact ⟨live, hsame ▸ hstored⟩
      · rw [hcancels.processCancel_eq, Engine.afterCancel,
          storedOrder_put hcancels.listed (hcancels.get_cancel)] at hstored
        split at hstored
        · next hhere =>
            obtain ⟨rfl, rfl⟩ := hhere
            exact ⟨order, storedOrder_eq_some.mpr
              ⟨book, hcancels.listed, hcancels.stored⟩⟩
        · exact ⟨live, hstored⟩
  | pauseMarket name triggeredBy wall =>
      exact ⟨live, (storedOrder_of_bookAt (bookAt_switchMarket e name _ _ _ wall
        marketId) id).symm.trans hstored⟩
  | resumeMarket name triggeredBy wall =>
      exact ⟨live, (storedOrder_of_bookAt (bookAt_switchMarket e name _ _ _ wall
        marketId) id).symm.trans hstored⟩
  | cancelAllOrders name wall =>
      simp only [Engine.apply, cancelAllOrders_books] at hstored
      exact ⟨live, hstored⟩
  | restoreFromEvents shuffle events => exact absurd rfl (hother _ _)

end Apply

/-! ## Closed orders -/

/-- An order that is closed in a book was filled or cancelled. -/
def Engine.ClosesForCause (e : Engine) : Prop :=
  ∀ {marketId id live}, storedOrder e.books marketId id = some live →
    live.isClosed = true → Concluded e.log live

section Closed

variable {basic : Prop} {crypto : Crypto} {e : Engine} {marketId : String}
  {id : OrderId} {live : Order} {op : Op}

theorem stored_restoreFromEvents (h : e.LogInv basic) (shuffle : Shuffle Order)
    (hne : e.log ≠ [])
    (hstored : storedOrder (e.restoreFromEvents shuffle e.log).1.books marketId
      id = some live) : live.isClosed = false := by
  obtain ⟨orders, horders, hreplay⟩ := h.legal.replay_ok shuffle
  have hbooks : (e.restoreFromEvents shuffle e.log).1.books =
      Replay.buildBooks shuffle orders := by
    simp [Engine.restoreFromEvents, hne, hreplay]
  rw [hbooks] at hstored
  obtain ⟨book, hget, hlive⟩ := storedOrder_eq_some.mp hstored
  have hbook := (buildBooks_book h.legal horders shuffle marketId).2
  exact ((hbook id live).mp (by rw [hget]; exact hlive)).2.1

theorem closesForCause_apply (h : e.Inv False basic noOrder)
    (hadmits : e.Admits op) (hcause : e.ClosesForCause) :
    (e.apply crypto op).1.ClosesForCause := by
  intro marketId id live hstored hclosed
  by_cases hrestore : ∃ shuffle events, op = .restoreFromEvents shuffle events
  · obtain ⟨shuffle, events, rfl⟩ := hrestore
    obtain rfl : events = e.log := hadmits
    simp only [Engine.apply] at hstored ⊢
    by_cases hne : e.log = []
    · have hsame : (e.restoreFromEvents shuffle e.log).1 = e := by
        simp [Engine.restoreFromEvents, hne]
      rw [hsame] at hstored ⊢
      exact hcause hstored hclosed
    · rw [stored_restoreFromEvents h.toLogInv shuffle hne hstored] at hclosed
      cases hclosed
  · have hother : ∀ shuffle events, op ≠ .restoreFromEvents shuffle events :=
      fun shuffle events hop => hrestore ⟨shuffle, events, hop⟩
    obtain ⟨old, hold⟩ := stored_apply h hadmits hother hstored hclosed
    obtain ⟨live', hlive', hadvances⟩ := advances_apply h hadmits hother hold
    obtain rfl := Option.some.inj (hstored.symm.trans hlive')
    cases hbefore : old.isClosed with
    | false => exact hadvances.cause hbefore hclosed
    | true =>
        obtain rfl := hadvances.final hbefore
        exact (hcause hold hbefore).mono (apply_log crypto hadmits)

theorem Step.run_closesForCause {ops : List Op}
    (h : Run (Step crypto) .new ops e) : e.ClosesForCause := by
  induction h with
  | start => exact fun hstored => by simp [storedOrder, Engine.new] at hstored
  | next hrun hstep ih =>
      obtain ⟨hadmits, rfl⟩ := hstep
      exact closesForCause_apply (Step.run_inv hrun) hadmits ih

end Closed

end ClobApi
