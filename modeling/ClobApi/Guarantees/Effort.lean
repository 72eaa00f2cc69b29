import ClobApi.Foundation.Amortized
import ClobApi.Foundation.FirstFault
import ClobApi.Guarantees.Priority
import ClobApi.Guarantees.PublicFeed

/-!
# How much matching an order can cause

Each fill closes one of its two orders and each cancellation closes an order,
and no order is closed twice.  So the log has at most one of them for each order
that it accepts, however the orders cross.
-/

namespace ClobApi

open Foundation

def openIds (log : List SequencedEvent) : List OrderId :=
  ((accepted log).map Order.orderId).filter fun id =>
    (leftOpen log id).isSome

def Event.isCancel : Event → Bool
  | .orderCancelled .. => true
  | _ => false

def LeavesBoth (before : List SequencedEvent) (se : SequencedEvent)
    (fill : Fill) : Prop :=
  se.event = .fill fill ∧
    (leftOpen (before ++ [se]) fill.takerOrderId).isSome = true ∧
    (leftOpen (before ++ [se]) fill.makerOrderId).isSome = true

def FillsClose (log : List SequencedEvent) : Prop := Faultless LeavesBoth log

/-! ## The matching loop -/

theorem FillsClose.append_other {log : List SequencedEvent}
    {se : SequencedEvent} (h : FillsClose log)
    (hother : se.event.fill? = none) : FillsClose (log ++ [se]) := by
  refine faultless_append.mpr ⟨h, fun fill hboth => ?_⟩
  rw [hboth.1] at hother
  cases hother

theorem FillsClose.numbered {log : List SequencedEvent} {events : List Event}
    (h : FillsClose log) (hother : ∀ event ∈ events, event.fill? = none)
    (wall : Nat → UInt64) (seqId : Nat) :
    FillsClose (log ++ numbered wall seqId events) := by
  induction events generalizing log seqId with
  | nil => rwa [ClobApi.numbered, List.append_nil]
  | cons event events ih =>
      rw [ClobApi.numbered, List.append_cons]
      have hfirst : FillsClose (log ++ [⟨seqId, wall seqId, event⟩]) :=
        h.append_other (hother event List.mem_cons_self)
      exact ih hfirst (fun other hmem => hother other (.tail _ hmem)) _

section Matching

variable {completed : Prop} {e : Engine} {st st' : MatchState} {maker : Order}
  {seqId : Nat} {nowMs : UInt64} {wall : Nat → UInt64}

theorem leftOpen_eq_none {log : List SequencedEvent} {id : OrderId}
    {logged live : Order} (hview : orderInLog log id = some logged)
    (hcore : logged.core = live.core) (hclosed : live.isClosed = true) :
    leftOpen log id = none := by
  simp [leftOpen, hview, Order.isClosed_eq_of_core hcore, hclosed]

theorem Matching.fill_closes (h : Matching completed True e st)
    (meets : st.Meets maker) (trader : maker.traderId ≠ st.taker.traderId) :
    leftOpen (e.fillOnce wall st maker seqId nowMs).log st.taker.orderId =
        none ∨
      leftOpen (e.fillOnce wall st maker seqId nowMs).log maker.orderId =
        none := by
  have hnext : Matching completed True (e.fillOnce wall st maker seqId nowMs)
      (st.fillAgainst maker seqId nowMs) := h.fill meets trader wall seqId nowMs
  by_cases hfull : (applyFillTo st.taker
      (st.fillQty maker) seqId).remainingSizeLots = 0
  · obtain ⟨logged, hview, hcore⟩ := hnext.pending.logged
    exact .inl (leftOpen_eq_none hview hcore
      (applyFillTo_isClosed_iff.mpr hfull))
  · have hget : (st.fillAgainst maker seqId nowMs).book.get maker.orderId =
        some (applyFillTo maker (st.fillQty maker) seqId) := by
      change (fillMaker st.book maker.orderId _ seqId).get maker.orderId = _
      rw [OrderBook.fillMaker_eq_settle, OrderBook.get_settle, if_pos rfl,
        (h.valid.get_maker meets).1]
      rfl
    obtain ⟨logged, hview, hmatches⟩ := hnext.inv.sync.stored
      (storedOrder_eq_some.mpr ⟨_, hnext.book, hget⟩)
    exact .inr (leftOpen_eq_none hview (hmatches.core trivial)
      (h.valid.fill_completes meets hfull))

theorem FillsClose.run (hrun : FillRun seqId nowMs st st')
    (h : Matching completed True
      (e.midway wall st.taker.marketId.value st) st)
    (hlog : FillsClose (e.midway wall st.taker.marketId.value st).log) :
    FillsClose (e.midway wall st.taker.marketId.value st').log := by
  induction hrun with
  | refl => exact hlog
  | @tail mid last hmid hstep ih =>
      have hmatching := Matching.run hmid h
      have hmarket : mid.taker.marketId = st.taker.marketId := by
        simpa using congrArg Order.marketId (FillRun.taker_terms hmid)
      cases hstep with
      | @fill maker meets trader =>
          rw [← hmarket] at ih hmatching ⊢
          rw [midway_fillAgainst]
          have happends := (fillOnce_appends wall
            (e.midway wall mid.taker.marketId.value mid) mid maker seqId
            nowMs).log
          unfold FillsClose
          rw [happends]
          refine faultless_append.mpr ⟨ih, fun fill hboth => ?_⟩
          obtain ⟨hevent, htaker, hmaker⟩ := hboth
          obtain rfl := Event.fill.inj hevent
          rw [← happends] at htaker hmaker
          rcases hmatching.fill_closes meets trader with hclosed | hclosed
          · exact Option.isSome_iff_ne_none.mp htaker hclosed
          · exact Option.isSome_iff_ne_none.mp hmaker hclosed

end Matching

/-! ## Whole runs -/

section Runs

variable {crypto : Crypto} {ops : List Op} {e e' : Engine} {op : Op}

theorem FillsClose.writes {wall : Nat → UInt64} {events : List Event}
    (h : FillsClose e.log) (hwrites : Writes wall e e' events)
    (hother : ∀ event ∈ events, event.fill? = none) : FillsClose e'.log := by
  rw [hwrites.log]
  exact h.numbered hother wall _

theorem FillsClose.quietly (h : FillsClose e.log) (hquiet : Quietly e e') :
    FillsClose e'.log := by
  obtain hsame | ⟨wall, events, hwrites, hevents⟩ := hquiet
  · rwa [hsame]
  · exact h.writes hwrites fun event hmem => (hevents event hmem).fill?

theorem FillsClose.processOrder {completed : Prop} {signed : SignedOrder}
    {env : CallEnv} (h : FillsClose e.log)
    (hinv : e.Inv completed True noOrder)
    (hadmits : e.Admits (.processOrder signed env)) :
    FillsClose (e.processOrder crypto signed env).1.log := by
  obtain ⟨outcome, hsame, -⟩ | ⟨hsubmits, -⟩ :=
    Engine.processOrder_cases crypto e signed env
  · rwa [hsame]
  have haccepted : FillsClose (e.afterAccept crypto signed env).log :=
    h.writes afterAccept_writes (by simp [Event.fill?])
  cases hbook : e.books.get? signed.marketId.value with
  | none =>
      rw [hsubmits.panics hbook]
      exact haccepted
  | some book =>
      obtain ⟨e', hdone, hexecuted⟩ := hsubmits.completes hbook rfl rfl
      have hstart := matching_start hinv hsubmits hadmits hbook
      obtain ⟨last, hrun, hend⟩ :=
        matchOrder_run hstart.valid e.sequencer.peekNextSeqId env.nowMs
      obtain ⟨-, hfills, -⟩ := hend.same
      have hmatched := FillsClose.run hrun hstart
        (haccepted.writes (midway_writes env.wall _ _ _) (by simp))
      rw [(midway_writes env.wall _ _ last).log, ← hfills] at hmatched
      rw [hdone, hexecuted.later.log, MatchState.events, numbered_append,
        ← List.append_assoc]
      refine hmatched.numbered (fun event hevent => ?_) _ _
      split at hevent
      · obtain rfl := List.mem_singleton.mp hevent
        rfl
      · cases hevent

theorem TradingStep.run_fillsClose (h : Run (TradingStep crypto) .new ops e) :
    FillsClose e.log := by
  induction h with
  | start => exact faultless_nil
  | @next ops e op e' hrun hstep ih =>
      obtain ⟨⟨hadmits, rfl⟩, htrading⟩ := hstep
      cases op with
      | processOrder signed env =>
          exact ih.processOrder (TradingStep.run_inv hrun) hadmits
      | _ => exact ih.quietly (apply_quietly hadmits (by simp))

end Runs

/-! ## The account of the log -/

def Event.cost (event : Event) : Nat :=
  if event.fill?.isSome ∨ event.isCancel then 1 else 0

def Event.credit (event : Event) : Nat :=
  if event.accepts.isSome then 1 else 0

section Account

variable {log log' : List SequencedEvent} {id : OrderId}

theorem mem_openIds : id ∈ openIds log ↔ (leftOpen log id).isSome = true := by
  rw [openIds, List.mem_filter, List.mem_map]
  refine and_iff_right_of_imp fun hopen => ?_
  obtain ⟨order, horder⟩ := Option.isSome_iff_exists.mp hopen
  obtain ⟨hview, -⟩ := leftOpen_eq_some.mp horder
  obtain ⟨new, hmem, hid, -⟩ := orderInLog_accepted hview
  exact ⟨new, hmem, hid⟩

theorem length_openIds_lt (haccepted : accepted log' = accepted log)
    (hkept : ∀ id, (leftOpen log' id).isSome = true →
      (leftOpen log id).isSome = true)
    (hopen : (leftOpen log id).isSome = true)
    (hclosed : leftOpen log' id = none) :
    (openIds log').length < (openIds log).length := by
  have hsub : (openIds log').Sublist (openIds log) := by
    unfold openIds
    rw [haccepted]
    exact List.monotone_filter_right _ hkept
  refine lt_of_le_of_ne hsub.length_le fun hlength => ?_
  have hmem : id ∈ openIds log' := by
    rw [hsub.eq_of_length hlength]
    exact mem_openIds.mpr hopen
  rw [mem_openIds, hclosed] at hmem
  cases hmem

theorem openIds_accept {new : Order}
    (hlast : LegalEvent True log (.orderAccepted new)) (seqId : Nat)
    (timestampMs : UInt64) :
    openIds (log ++ [⟨seqId, timestampMs, .orderAccepted new⟩]) =
      openIds log ++ [new.orderId] := by
  have hfresh : ∀ order ∈ accepted log, order.orderId ≠ new.orderId := by
    intro order hmem hsame
    have hknown := orderInLog_isSome hmem
    cases hlast with
    | orderAccepted fresh =>
        rw [hsame, fresh] at hknown
        cases hknown
  unfold openIds
  rw [accepted_append, List.map_append, List.filter_append]
  congr 1
  · refine List.filter_congr fun id hid => ?_
    obtain ⟨order, hmem, rfl⟩ := List.mem_map.mp hid
    rw [leftOpen_accept hlast, if_neg (hfresh order hmem)]
  · simp [Event.accepts, leftOpen_accept hlast]

/-- Each event is paid by the order it accepts or by an order it closes. -/
theorem openIds_affordable {se : SequencedEvent} (hlegal : LegalLog True log)
    (hlast : LegalEvent True log se.event)
    (hcloses : ∀ fill, ¬ LeavesBoth log se fill) :
    se.event.cost + (openIds (log ++ [se])).length ≤
      se.event.credit + (openIds log).length := by
  obtain ⟨seqId, timestampMs, event⟩ := se
  dsimp only at hlast ⊢
  cases hevent : event.accepts with
  | some new =>
      obtain rfl : event = .orderAccepted new := by
        cases event <;> simp_all [Event.accepts]
      rw [openIds_accept hlast, List.length_append,
        List.length_singleton]
      simp [Event.cost, Event.credit, Event.accepts, Event.fill?,
        Event.isCancel, Nat.add_comm]
  | none =>
      have haccepted : accepted (log ++ [⟨seqId, timestampMs, event⟩]) =
          accepted log := by
        rw [accepted_append, hevent]
        exact List.append_nil _
      have hkept : ∀ id,
          (leftOpen (log ++ [⟨seqId, timestampMs, event⟩]) id).isSome = true →
            (leftOpen log id).isSome = true := by
        intro id hopen
        obtain ⟨order', horder'⟩ := Option.isSome_iff_exists.mp hopen
        obtain ⟨order, horder, -⟩ :=
          (leftOpen_append hlegal hlast hevent).mp horder'
        exact Option.isSome_iff_exists.mpr ⟨order, horder⟩
      have hlt : ∀ {id : OrderId} {order : Order},
          orderInLog log id = some order → order.isClosed = false →
          leftOpen (log ++ [⟨seqId, timestampMs, event⟩]) id = none →
          1 + (openIds (log ++ [⟨seqId, timestampMs, event⟩])).length ≤
            (openIds log).length := by
        intro id order hview hlive hnone
        have hopen : (leftOpen log id).isSome = true :=
          Option.isSome_iff_exists.mpr
            ⟨order, leftOpen_eq_some.mpr ⟨hview, hlive⟩⟩
        have := length_openIds_lt haccepted hkept hopen hnone
        omega
      have hle : (openIds (log ++ [⟨seqId, timestampMs, event⟩])).length ≤
          (openIds log).length := by
        unfold openIds
        rw [haccepted]
        exact (List.monotone_filter_right _ hkept).length_le
      cases hlast with
      | orderAccepted => cases hevent
      | @fill fill taker maker taker_mem maker_mem legal =>
          have hlive := legal.live trivial
          have hnone : leftOpen (log ++ [⟨seqId, timestampMs, .fill fill⟩])
                fill.takerOrderId = none ∨
              leftOpen (log ++ [⟨seqId, timestampMs, .fill fill⟩])
                fill.makerOrderId = none := by
            by_contra hboth
            rw [not_or] at hboth
            exact hcloses fill ⟨rfl, Option.isSome_iff_ne_none.mpr hboth.1,
              Option.isSome_iff_ne_none.mpr hboth.2⟩
          rcases hnone with htaker | hmaker
          · exact (hlt taker_mem hlive.1 htaker).trans (Nat.le_add_left _ _)
          · exact (hlt maker_mem hlive.2 hmaker).trans (Nat.le_add_left _ _)
      | @orderCancelled id order reason order_mem live =>
          refine (hlt order_mem (live trivial) ?_).trans (Nat.le_add_left _ _)
          have hclosed : (Replay.cancelOrder seqId reason order).isClosed =
              true := by
            cases reason <;> rfl
          unfold leftOpen
          rw [orderInLog_append, viewStep_cancel, if_pos rfl, order_mem]
          simp [hclosed]
      | marketPaused | marketResumed =>
          simpa [Event.cost, Event.credit, Event.accepts, Event.fill?,
            Event.isCancel] using hle

theorem sum_cost (log : List SequencedEvent) :
    (log.map fun se => se.event.cost).sum = (fillsIn log).length +
      (log.filter fun se => se.event.isCancel).length := by
  induction log with
  | nil => rfl
  | cons se log ih =>
      rw [List.map_cons, List.sum_cons, ih]
      cases hevent : se.event <;>
        simp [fillsIn, Event.cost, Event.fill?, Event.isCancel, hevent] <;>
          omega

theorem sum_credit (log : List SequencedEvent) :
    (log.map fun se => se.event.credit).sum = (accepted log).length := by
  induction log with
  | nil => rfl
  | cons se log ih =>
      rw [List.map_cons, List.sum_cons, ih]
      cases hevent : se.event <;>
        simp [accepted, Event.credit, Event.accepts, hevent, Nat.add_comm]

end Account

/--
In every run without forced cancellations each fill closes its taker or its
maker.  The fills and the cancellations of the log, with the orders that it
leaves open, are no more than the orders it accepts.
-/
theorem fills_add_cancels_le_accepted {crypto : Crypto} {ops : List Op}
    {e : Engine} (h : Run (TradingStep crypto) .new ops e) :
    (∀ before se after fill, e.log = before ++ se :: after →
      se.event = .fill fill →
        leftOpen (before ++ [se]) fill.takerOrderId = none ∨
          leftOpen (before ++ [se]) fill.makerOrderId = none) ∧
      (fillsIn e.log).length +
          (e.log.filter fun se => se.event.isCancel).length +
          (openIds e.log).length ≤ (accepted e.log).length := by
  have hlegal := (TradingStep.run_inv h).legal
  have hcloses := TradingStep.run_fillsClose h
  constructor
  · intro before se after fill hsplit hfill
    by_contra hboth
    rw [not_or] at hboth
    exact hcloses before se after hsplit fill ⟨hfill,
      Option.isSome_iff_ne_none.mpr hboth.1,
      Option.isSome_iff_ne_none.mpr hboth.2⟩
  · have haffordable : Affordable (fun se : SequencedEvent => se.event.cost)
        (fun se => se.event.credit) (fun log => (openIds log).length)
        e.log := by
      intro before se after hsplit
      obtain ⟨hbefore, hlast⟩ := hlegal.split hsplit
      exact openIds_affordable hbefore hlast (hcloses before se after hsplit)
    have htotal := haffordable.total
    rw [sum_cost, sum_credit] at htotal
    exact htotal

theorem fills_add_cancels_le_accepted_traded :
    (fillsIn Sample.tradedLog).length = 1 ∧
      1 + (openIds Sample.tradedLog).length ≤
        (accepted Sample.tradedLog).length := by
  have htrading : Run (TradingStep Sample.crypto) .new Sample.traded
      (Sample.after Sample.traded) :=
    Step.run_trading (Sample.traded_run.mono fun _ _ _ hstep => hstep.1)
      (by decide)
  have hbound := (fills_add_cancels_le_accepted htrading).2
  rw [Sample.traded_log.1] at hbound
  exact ⟨rfl, hbound⟩

end ClobApi
