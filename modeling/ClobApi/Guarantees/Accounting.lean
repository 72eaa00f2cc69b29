import ClobApi.Engine.BooksPresent
import ClobApi.Replay.FillSums

/-!
# Fill accounting

The state store, the log and the stored orders agree on how much of an order is
filled, and it is never more than the order's size.  So neither the subtraction
in `remaining_size_lots` nor the additions of matching and of `apply_fill` wrap.
-/

namespace ClobApi

open Foundation

/-! ## The arithmetic of matching -/

/-- At this entry sizes are subtracted and added within their orders. -/
structure Visit.Safe (seqId : Nat) (nowMs : UInt64) (visit : Visit) : Prop where
  taker : visit.state.taker.filledSizeLots ≤ visit.state.taker.origSizeLots
  maker : ∀ maker, visit.state.book.get visit.makerId = some maker →
    maker.filledSizeLots ≤ maker.origSizeLots
  takerFill : ∀ fill ∈ visit.fills seqId nowMs,
    visit.state.taker.filledSizeLots.toNat + fill.sizeLots.toNat ≤
      visit.state.taker.origSizeLots.toNat
  makerFill : ∀ maker, visit.state.book.get visit.makerId = some maker →
    ∀ fill ∈ visit.fills seqId nowMs,
      maker.filledSizeLots.toNat + fill.sizeLots.toNat ≤
        maker.origSizeLots.toNat

/-- The whole of `match_order` computes without wrapping. -/
structure SafeMatching (book : OrderBook) (taker : Order) (seqId : Nat)
    (nowMs : UInt64) : Prop where
  levels : ∀ level ∈ visits (matchLevel taker.side.opposite seqId nowMs)
    (crossablePrices book taker) ⟨book, taker, []⟩,
    level.1.taker.filledSizeLots ≤ level.1.taker.origSizeLots
  entries : ∀ visit ∈ matchVisits book taker seqId nowMs, visit.Safe seqId nowMs
  result : (matchOrder book taker seqId nowMs).taker.filledSizeLots ≤
    (matchOrder book taker seqId nowMs).taker.origSizeLots

section Matching

variable {seqId : Nat} {nowMs : UInt64}

theorem add_le_orig {order : Order}
    (hle : order.filledSizeLots ≤ order.origSizeLots) {qty : UInt64}
    (hqty : qty ≤ order.remainingSizeLots) :
    order.filledSizeLots.toNat + qty.toNat ≤ order.origSizeLots.toNat := by
  rw [UInt64.le_iff_toNat_le, Order.remainingSizeLots_toNat hle] at hqty
  rw [UInt64.le_iff_toNat_le] at hle
  omega

theorem Visit.Sound.safe {start : MatchState} {visit : Visit}
    (hstart : start.Valid) (h : visit.Sound seqId nowMs start) :
    visit.Safe seqId nowMs := by
  have hvalid := h.run.valid hstart
  refine ⟨hvalid.taker.filled_le,
    fun maker hget => (hvalid.book.consistent hget).filled_le,
    fun fill hfill => ?_, fun maker hget fill hfill => ?_⟩
  · obtain ⟨maker, -, -, -, rfl⟩ := h.fill hfill
    exact add_le_orig hvalid.taker.filled_le MatchState.fillQty_le_taker
  · obtain ⟨maker', hget', -, -, rfl⟩ := h.fill hfill
    obtain rfl := Option.some.inj (hget.symm.trans hget')
    exact add_le_orig (hvalid.book.consistent hget).filled_le
      MatchState.fillQty_le_maker

theorem MatchState.Valid.safeMatching {book : OrderBook} {taker : Order}
    (hvalid : (MatchState.mk book taker []).Valid) :
    SafeMatching book taker seqId nowMs where
  levels := by
    rintro ⟨st, price⟩ hlevel
    obtain ⟨later, hinv⟩ := visits_induction (matchLevel_keeps hvalid) _ _
      (sweepInv_start hvalid seqId nowMs) _ hlevel
    cases hinv.levelEnd with
    | swept run rest => exact (run.valid hvalid).taker.filled_le
    | selfTrade run meets trader => exact (run.valid hvalid).taker.filled_le
  entries := fun visit hvisit =>
    (matchVisits_sound hvalid visit hvisit).safe hvalid
  result := by
    obtain ⟨st, hrun, hend⟩ := matchOrder_run hvalid seqId nowMs
    have hle := (hrun.valid hvalid).taker.filled_le
    generalize matchOrder book taker seqId nowMs = st' at hend ⊢
    cases hend with
    | filled => exact hle
    | exhausted => exact hle
    | selfTrade => exact hle

end Matching

/-! ## The arithmetic of `apply_fill` -/

/-- Both additions of `apply_fill` stay below `2^64`. -/
def FillFits (state : StateStore) (fill : Fill) : Prop :=
  (state.filledAmount fill.takerOrderHash.bytes).toNat + fill.sizeLots.toNat <
    2 ^ 64 ∧
    ((state.addFilled fill.takerOrderHash.bytes fill.sizeLots).filledAmount
      fill.makerOrderHash.bytes).toNat + fill.sizeLots.toNat < 2 ^ 64

theorem StateStore.Agrees.fillFits {state state' : StateStore}
    (h : state.Agrees state') {fill : Fill} (hfits : FillFits state' fill) :
    FillFits state fill := by
  unfold FillFits at hfits ⊢
  rwa [h.filledAmount, (h.addFilled _ _).filledAmount]

theorem LegalEvent.fillFits {strict : Prop} {log : List SequencedEvent}
    {fill : Fill} (h : LegalEvent strict log (.fill fill))
    (hlog : LegalLog strict log) (hdistinct : DistinctHashes log) :
    FillFits (stateInLog log) fill := by
  cases h with
  | @fill _ taker maker htaker hmaker legal =>
      have htakerFill :=
        add_le_orig (hlog.loggedOrder htaker).consistent.filled_le
          legal.takerRoom
      have hmakerFill :=
        add_le_orig (hlog.loggedOrder hmaker).consistent.filled_le
          legal.makerRoom
      have htakerSize := taker.origSizeLots.toNat_lt
      have hmakerSize := maker.origSizeLots.toNat_lt
      have hne : maker.orderHash ≠ taker.orderHash := fun hhash =>
        legal.distinct
          (LegalLog.orderId_of_hash hdistinct htaker hmaker hhash.symm)
      unfold FillFits
      rw [legal.takerHash, legal.makerHash, filledAmount_addFilled,
        if_neg (OrderHash.bytes_ne hne), hlog.filledAmount_eq hdistinct htaker,
        hlog.filledAmount_eq hdistinct hmaker]
      omega

def applyFillCalls : StateStore → List Fill → List (StateStore × Fill)
  | _, [] => []
  | state, fill :: fills =>
      (state, fill) :: applyFillCalls
        (state.applyFill fill.takerOrderHash.bytes fill.makerOrderHash.bytes
          fill.sizeLots) fills

def replayFillCalls : StateStore → List SequencedEvent →
    List (StateStore × Fill)
  | _, [] => []
  | state, se :: log =>
      (match se.event with
        | .fill fill => [(state, fill)]
        | _ => []) ++ replayFillCalls (stateStep state se) log

namespace Engine

def applyFillCalls (crypto : Crypto) (e : Engine) :
    Op → List (StateStore × Fill)
  | .processOrder signed env =>
      match e.matchInput crypto signed env with
      | some (book, order) =>
          ClobApi.applyFillCalls (e.afterAccept crypto signed env).state
            (matchOrder book order order.createdSequence env.nowMs).fills
      | none => []
  | .restoreFromEvents _ events => replayFillCalls .new events
  | _ => []

def Safe (crypto : Crypto) (e : Engine) (op : Op) : Prop :=
  (∀ signed env book order, op = .processOrder signed env →
    e.matchInput crypto signed env = some (book, order) →
      SafeMatching book order order.createdSequence env.nowMs) ∧
  ∀ call ∈ e.applyFillCalls crypto op, FillFits call.1 call.2

end Engine

theorem applyFillCalls_append (state : StateStore) (fills : List Fill)
    (fill : Fill) :
    applyFillCalls state (fills ++ [fill]) = applyFillCalls state fills ++
      [(fills.foldl (fun state fill => state.applyFill fill.takerOrderHash.bytes
        fill.makerOrderHash.bytes fill.sizeLots) state, fill)] := by
  induction fills generalizing state with
  | nil => rfl
  | cons first fills ih =>
      simp only [List.cons_append, applyFillCalls, ih, List.foldl_cons]

theorem replayFillCalls_mem {state : StateStore} {log : List SequencedEvent}
    {call : StateStore × Fill} (h : call ∈ replayFillCalls state log) :
    ∃ before se after, log = before ++ se :: after ∧ se.event = .fill call.2 ∧
      call.1 = before.foldl stateStep state := by
  induction log generalizing state with
  | nil => cases h
  | cons se log ih =>
      rw [replayFillCalls, List.mem_append] at h
      rcases h with h | h
      · refine ⟨[], se, log, rfl, ?_⟩
        cases hev : se.event with
        | fill fill =>
            simp only [hev, List.mem_singleton] at h
            subst h
            exact ⟨rfl, rfl⟩
        | _ => simp [hev] at h
      · obtain ⟨before, se', after, rfl, hev, hstate⟩ := ih h
        exact ⟨se :: before, se', after, rfl, hev, hstate⟩

theorem midway_state (wall : Nat → UInt64) (e : Engine) (marketId : String)
    (st : MatchState) :
    (e.midway wall marketId st).state =
      st.fills.foldl (fun state fill =>
        state.applyFill fill.takerOrderHash.bytes fill.makerOrderHash.bytes
          fill.sizeLots) e.state := by
  have hfold : ∀ (fills : List Fill) (e : Engine),
      (fills.foldl (Engine.sequenceFill wall) e).state =
        fills.foldl (fun state fill => state.applyFill fill.takerOrderHash.bytes
          fill.makerOrderHash.bytes fill.sizeLots) e.state := by
    intro fills
    induction fills with
    | nil => exact fun _ => rfl
    | cons fill fills ih => exact fun e => ih _
  exact hfold st.fills _

theorem accepted_midway (wall : Nat → UInt64) (e : Engine) (marketId : String)
    (st : MatchState) :
    accepted (e.midway wall marketId st).log = accepted e.log := by
  have hnone : (st.fills.map Event.fill).filterMap Event.accepts = [] := by
    simp [Event.accepts]
  rw [(midway_writes wall e marketId st).accepted, hnone, List.append_nil]

section Reachable

variable {completed basic : Prop} {crypto : Crypto} {e : Engine}

theorem matching_fillFits {st st' : MatchState} {seqId : Nat} {nowMs : UInt64}
    {wall : Nat → UInt64} (hrun : FillRun seqId nowMs st st')
    (h : Matching completed basic (e.midway wall st.taker.marketId.value st) st)
    (hdistinct : DistinctHashes e.log) (hstart : st.fills = []) :
    ∀ call ∈ applyFillCalls e.state st'.fills, FillFits call.1 call.2 := by
  induction hrun with
  | refl => simp [hstart, applyFillCalls]
  | @tail mid last hmid hstep ih =>
      cases hstep with
      | fill meets trader =>
          have hmatching := h.run hmid
          have hevent := hmatching.legalEvent meets trader seqId nowMs
          have hfits := hevent.fillFits hmatching.inv.legal (by
            unfold DistinctHashes
            rw [accepted_midway]
            exact hdistinct)
          have hlast := hmatching.inv.state.fillFits hfits
          rw [midway_state] at hlast
          intro call hcall
          rw [MatchState.fillAgainst, applyFillCalls_append, List.mem_append,
            List.mem_singleton] at hcall
          rcases hcall with hcall | rfl
          · exact ih call hcall
          · exact hlast

theorem submission_fillFits {signed : SignedOrder} {env : CallEnv}
    {book : OrderBook} (h : e.Inv completed basic noOrder)
    (hsubmits : Engine.Submits crypto e signed env)
    (hadmits : e.Admits (.processOrder signed env))
    (hbook : e.books.get? signed.marketId.value = some book)
    (hdistinct : DistinctHashes (e.processOrder crypto signed env).1.log) :
    ∀ call ∈ applyFillCalls (e.afterAccept crypto signed env).state
        (matchOrder book
          (Engine.buildOrder crypto signed env e.sequencer.peekNextSeqId)
          e.sequencer.peekNextSeqId env.nowMs).fills,
      FillFits call.1 call.2 := by
  have hstart := matching_start h hsubmits hadmits hbook
  obtain ⟨st, hrun, hend⟩ :=
    matchOrder_run hstart.valid e.sequencer.peekNextSeqId env.nowMs
  obtain ⟨e', hdone, hexecuted⟩ := hsubmits.completes hbook rfl rfl
  have haccepted : accepted (e.processOrder crypto signed env).1.log =
      accepted (e.afterAccept crypto signed env).log := by
    rw [hdone, hexecuted.accepted]
    exact afterAccept_writes.accepted.symm
  have hafter : DistinctHashes (e.afterAccept crypto signed env).log := by
    unfold DistinctHashes at hdistinct ⊢
    rwa [haccepted] at hdistinct
  have hfits := matching_fillFits hrun hstart hafter rfl
  rwa [← hend.same.2.1] at hfits

theorem recovery_fillFits (h : e.Inv completed basic noOrder)
    (hdistinct : DistinctHashes e.log) :
    ∀ call ∈ replayFillCalls .new e.log, FillFits call.1 call.2 := by
  intro call hcall
  obtain ⟨before, se, after, hlog, hev, hstate⟩ := replayFillCalls_mem hcall
  obtain ⟨hbefore, hevent⟩ := h.legal.split hlog
  rw [hev] at hevent
  rw [hlog] at hdistinct
  rw [hstate]
  exact hevent.fillFits hbefore hdistinct.of_append

theorem apply_safe (h : e.Inv completed basic noOrder) {op : Op}
    (hadmits : e.Admits op)
    (hdistinct : DistinctHashes (e.apply crypto op).1.log) :
    e.Safe crypto op := by
  refine ⟨?_, ?_⟩
  · rintro signed env book order rfl hinput
    obtain ⟨outcome, -, -, hnone⟩ | ⟨hsubmits, -⟩ :=
      Engine.processOrder_cases crypto e signed env
    · simp [hnone] at hinput
    · rw [hsubmits.matchInput, Option.map_eq_some_iff] at hinput
      obtain ⟨book', hbook, hpair⟩ := hinput
      obtain ⟨rfl, rfl⟩ := Prod.mk.inj hpair
      exact (matching_start h hsubmits hadmits hbook).valid.safeMatching
  · cases op with
    | processOrder signed env =>
        simp only [Engine.applyFillCalls]
        obtain ⟨outcome, -, -, hnone⟩ | ⟨hsubmits, -⟩ :=
          Engine.processOrder_cases crypto e signed env
        · simp [hnone]
        rw [hsubmits.matchInput]
        cases hbook : e.books.get? signed.marketId.value with
        | none => simp
        | some book =>
            exact submission_fillFits h hsubmits hadmits hbook hdistinct
    | restoreFromEvents shuffle events =>
        obtain rfl : events = e.log := hadmits
        refine recovery_fillFits h ?_
        rw [← restoreFromEvents_log e shuffle]
        exact hdistinct
    | _ => simp [Engine.applyFillCalls]

/-- What the three places say of an accepted order. -/
structure Accounted (e : Engine) (order : Order) : Prop where
  store : (e.state.filledAmount order.orderHash.bytes).toNat =
    filledInLog e.log order.orderId
  book : ∀ marketId live,
    storedOrder e.books marketId order.orderId = some live →
    live.filledSizeLots.toNat = filledInLog e.log order.orderId
  bound : filledInLog e.log order.orderId ≤ order.origSizeLots.toNat

theorem Engine.Inv.accounted (h : e.Inv completed basic noOrder)
    (hdistinct : DistinctHashes e.log) {order : Order}
    (hmem : order ∈ accepted e.log) : Accounted e order := by
  obtain ⟨logged, hview, hterms⟩ := h.legal.accepted_view hmem
  have hsum := h.legal.filledSizeLots_toNat hview
  have hhash : order.orderHash = logged.orderHash := by
    simpa using (congrArg Order.orderHash hterms).symm
  have hsize : order.origSizeLots = logged.origSizeLots := by
    simpa using (congrArg Order.origSizeLots hterms).symm
  refine ⟨?_, fun marketId live hstored => ?_, ?_⟩
  · rw [h.state.filledAmount, hhash,
      h.legal.filledAmount_eq hdistinct hview, hsum]
  · obtain ⟨logged', hview', hmatches⟩ := h.sync.stored hstored
    obtain rfl := Option.some.inj (hview.symm.trans hview')
    rw [← Order.filledSizeLots_eq_of_facts hmatches.facts, hsum]
  · rw [← hsum, hsize]
    exact UInt64.le_iff_toNat_le.mp
      (h.legal.loggedOrder hview).consistent.filled_le

/--
In every run whose accepted orders have different hashes, the store, the log and
the books agree on what is filled of each, within its size; and the next step
computes without wrapping.
-/
theorem fill_accounting {ops : List Op} (h : Run (Step crypto) .new ops e)
    (hdistinct : DistinctHashes e.log) :
    (∀ order ∈ accepted e.log, Accounted e order) ∧
      ∀ op e', Step crypto e op e' → DistinctHashes e'.log →
        e.Safe crypto op := by
  have hinv := Step.run_inv h
  refine ⟨fun order hmem => hinv.accounted hdistinct hmem, ?_⟩
  rintro op e' ⟨hadmits, rfl⟩ hnext
  exact apply_safe hinv hadmits hnext

theorem fill_accounting_traded :
    filledInLog (Sample.after Sample.traded).log ⟨"ask"⟩ = 4 ∧
      ((Sample.after Sample.traded).state.filledAmount Sample.askHash).toNat =
        4 := by
  have hdistinct : DistinctHashes (Sample.after Sample.traded).log := by
    rw [Sample.traded_log.1]
    unfold DistinctHashes
    decide
  have hsum : filledInLog (Sample.after Sample.traded).log ⟨"ask"⟩ = 4 := by
    rw [Sample.traded_log.1]
    decide
  have hmem : Sample.askOrder ∈ accepted (Sample.after Sample.traded).log := by
    rw [Sample.traded_log.1]
    decide
  have haccounted :=
    (fill_accounting (Sample.traded_run.mono fun _ _ _ h => h.1) hdistinct).1
      Sample.askOrder hmem
  exact ⟨hsum, haccounted.store.trans hsum⟩

end Reachable

end ClobApi
