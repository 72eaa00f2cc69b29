import ClobApi.Engine.Writes

/-!
# Price-time priority over whole runs

The fills of a log are the fills of the moments that matching went through, in
order, and at each moment the maker is the first of all orders then resting on
the other side of the taker's market.
-/

namespace ClobApi

open Foundation

def Event.fill? : Event → Option Fill
  | .fill trade => some trade
  | _ => none

def fillsIn (log : List SequencedEvent) : List Fill :=
  log.filterMap fun se => se.event.fill?

def Fill.isIn (marketId : String) (fill : Fill) : Bool :=
  fill.marketId.value == marketId

def fillsOf (marketId : String) (log : List SequencedEvent) : List Fill :=
  (fillsIn log).filter (Fill.isIn marketId)

/-! ## The fills that one operation appends -/

section Appended

variable {wall : Nat → UInt64} {e e' : Engine} {events : List Event}

theorem Writes.fillsIn (h : Writes wall e e' events) :
    fillsIn e'.log = fillsIn e.log ++ events.filterMap Event.fill? := by
  have hevents : ∀ log : List SequencedEvent, ClobApi.fillsIn log =
      (log.map SequencedEvent.event).filterMap Event.fill? := by
    intro log
    rw [List.filterMap_map]
    rfl
  rw [hevents, hevents, h.log, List.map_append, map_event_numbered,
    List.filterMap_append]

theorem Writes.fillsOf (h : Writes wall e e' events) (marketId : String) :
    fillsOf marketId e'.log = fillsOf marketId e.log ++
      (events.filterMap Event.fill?).filter (Fill.isIn marketId) := by
  unfold ClobApi.fillsOf
  rw [h.fillsIn, List.filter_append]

theorem Event.Quiet.fill? {event : Event} (h : event.Quiet) :
    event.fill? = none := by
  cases h <;> rfl

theorem Quietly.fillsIn (h : Quietly e e') :
    fillsIn e'.log = fillsIn e.log := by
  obtain hsame | ⟨wall, events, hwrites, hquiet⟩ := h
  · rw [hsame]
  · rw [hwrites.fillsIn, filterMap_quiet Event.Quiet.fill? hquiet,
      List.append_nil]

theorem filterMap_fill_events (st : MatchState) :
    st.events.filterMap Event.fill? = st.fills := by
  have hfills : (st.fills.map Event.fill).filterMap Event.fill? = st.fills := by
    rw [List.filterMap_map]
    exact List.filterMap_some
  unfold MatchState.events
  rw [List.filterMap_append, hfills]
  split
  · exact List.append_nil _
  · exact List.append_nil _

theorem fillsIn_processOrder {crypto : Crypto} (signed : SignedOrder)
    (env : CallEnv) :
    fillsIn (e.processOrder crypto signed env).1.log =
      fillsIn e.log ++
        (e.moments crypto (.processOrder signed env)).map Prod.snd := by
  simp only [Engine.moments]
  obtain ⟨outcome, hsame, -, hinput⟩ | ⟨hsubmits, -⟩ :=
    Engine.processOrder_cases crypto e signed env
  · simp [hsame, hinput]
  rw [hsubmits.matchInput]
  cases hbook : e.books.get? signed.marketId.value with
  | none =>
      rw [hsubmits.panics hbook]
      exact afterAccept_writes.fillsIn
  | some book =>
      obtain ⟨e', hdone, hexecuted⟩ := hsubmits.completes hbook rfl rfl
      rw [hdone, hexecuted.writes.fillsIn, List.filterMap_cons,
        filterMap_fill_events, matchOrder_fills]
      rfl

theorem fillsIn_apply {crypto : Crypto} {op : Op} (hadmits : e.Admits op) :
    fillsIn (e.apply crypto op).1.log =
      fillsIn e.log ++ (e.moments crypto op).map Prod.snd := by
  cases op with
  | processOrder signed env => exact fillsIn_processOrder signed env
  | _ =>
      rw [(apply_quietly hadmits (by simp)).fillsIn]
      exact (List.append_nil _).symm

end Appended

/-! ## Priority -/

/--
The fill goes to the first order resting on the other side of the taker's
market.
-/
def TakesFirst (moment : MatchState × Fill) : Prop :=
  ∃ maker, moment.1.book.First moment.1.taker.side.opposite maker ∧
    moment.1.taker.Crosses maker.priceTicks ∧
    moment.2.makerOrderId = maker.orderId ∧
    moment.2.priceTicks = maker.priceTicks ∧
    moment.2.takerOrderId = moment.1.taker.orderId ∧
    moment.2.marketId = moment.1.taker.marketId

theorem moments_takeFirst {completed basic : Prop} {crypto : Crypto}
    {e : Engine} (h : e.Inv completed basic noOrder) {op : Op}
    (hadmits : e.Admits op) :
    ∀ moment ∈ e.moments crypto op, TakesFirst moment := by
  cases op with
  | processOrder signed env =>
      simp only [Engine.moments]
      obtain ⟨outcome, -, -, hinput⟩ | ⟨hsubmits, -⟩ :=
        Engine.processOrder_cases crypto e signed env
      · simp [hinput]
      rw [hsubmits.matchInput]
      cases hbook : e.books.get? signed.marketId.value with
      | none => simp
      | some book =>
          have hstart := matching_start h hsubmits hadmits hbook
          intro moment hmoment
          simp only [Option.map_some, fillMoments, List.mem_flatMap,
            List.mem_map] at hmoment
          obtain ⟨visit, hvisit, fill, hfill, rfl⟩ := hmoment
          have hsound := matchVisits_sound hstart.valid visit hvisit
          obtain ⟨maker, -, hmeets, htrader, rfl⟩ := hsound.fill hfill
          have hlegal := (hstart.run hsound.run).legalFill hmeets htrader 0 0
          exact ⟨maker, hmeets.first, hmeets.crosses, rfl, rfl, rfl,
            hlegal.takerMarket.symm⟩
  | _ => simp [Engine.moments]

/--
In every run the fills of the log are those of the moments of the run, and each
took the first order then resting on the other side of its market.
-/
theorem fills_take_first {crypto : Crypto} {ops : List Op} {e : Engine}
    (h : Run (Step crypto) .new ops e) :
    fillsIn e.log = (Engine.new.allMoments crypto ops).map Prod.snd ∧
      ∀ moment ∈ Engine.new.allMoments crypto ops, TakesFirst moment := by
  induction h with
  | start => exact ⟨rfl, by simp [Engine.allMoments]⟩
  | @next ops e op _ hrun hstep ih =>
      obtain ⟨hadmits, rfl⟩ := hstep
      rw [allMoments_append, ← Step.run_applyAll hrun]
      refine ⟨?_, fun moment hmoment => ?_⟩
      · rw [fillsIn_apply hadmits, ih.1, List.map_append]
      · rcases List.mem_append.mp hmoment with hold | hnew
        · exact ih.2 moment hold
        · exact moments_takeFirst (Step.run_inv hrun) hadmits moment hnew

theorem fills_take_first_traded :
    ∃ fill, fillsIn (Sample.after Sample.traded).log = [fill] ∧
      fill.makerOrderId = ⟨"ask"⟩ ∧
      ∀ moment ∈ Engine.new.allMoments Sample.crypto Sample.traded,
        TakesFirst moment := by
  refine ⟨makeFill Sample.bidOrder Sample.askOrder 100 4 2 2000, ?_, rfl, ?_⟩
  · rw [Sample.traded_log.1]
    rfl
  · exact (fills_take_first (Sample.traded_run.mono fun _ _ _ h => h.1)).2

end ClobApi
