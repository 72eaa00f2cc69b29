import ClobApi.Engine.MatchRun

/-!
# The moments of the matching loops

`matchVisits` lists every entry into the body of the inner loop, with the state
it finds there; `fillMoments` pairs each fill with the state in which it was
made.  Both are read off the loops themselves.
-/

namespace ClobApi

open Foundation

structure Visit where
  state : MatchState
  price : UInt64
  makerId : OrderId

def Visit.fills (seqId : Nat) (nowMs : UInt64) (visit : Visit) : List Fill :=
  (stepState (matchMaker visit.price seqId nowMs visit.state
    visit.makerId)).fills.drop visit.state.fills.length

def levelVisits (makerSide : Side) (seqId : Nat) (nowMs : UInt64)
    (st : MatchState) (price : UInt64) : List Visit :=
  if st.taker.remainingSizeLots = 0 then []
  else if st.taker.isClosed then []
  else
    (visits (matchMaker price seqId nowMs)
      (st.book.ordersAtPrice price makerSide) st).map
      fun visit => ⟨visit.1, price, visit.2⟩

def matchVisits (book : OrderBook) (taker : Order) (seqId : Nat)
    (nowMs : UInt64) : List Visit :=
  (visits (matchLevel taker.side.opposite seqId nowMs)
    (crossablePrices book taker) ⟨book, taker, []⟩).flatMap
      fun visit => levelVisits taker.side.opposite seqId nowMs visit.1 visit.2

/-- The fills of one call, each with the state in which it was made. -/
def fillMoments (book : OrderBook) (taker : Order) (seqId : Nat)
    (nowMs : UInt64) : List (MatchState × Fill) :=
  (matchVisits book taker seqId nowMs).flatMap
    fun visit => (visit.fills seqId nowMs).map fun fill => (visit.state, fill)

section Fills

variable (seqId : Nat) (nowMs : UInt64)

theorem matchMaker_fills (price : UInt64) (st : MatchState)
    (makerId : OrderId) :
    (stepState (matchMaker price seqId nowMs st makerId)).fills =
      st.fills ++ Visit.fills seqId nowMs ⟨st, price, makerId⟩ := by
  have hgrows : st.fills <+:
      (stepState (matchMaker price seqId nowMs st makerId)).fills := by
    fun_cases matchMaker price seqId nowMs st makerId <;> simp [stepState]
  obtain ⟨suffix, hsuffix⟩ := hgrows
  simp [Visit.fills, ← hsuffix]

theorem matchLevel_fills (makerSide : Side) (st : MatchState) (price : UInt64) :
    (stepState (matchLevel makerSide seqId nowMs st price)).fills =
      st.fills ++
        (levelVisits makerSide seqId nowMs st price).flatMap
          (Visit.fills seqId nowMs) := by
  unfold matchLevel levelVisits
  split
  · simp [stepState]
  · split
    · simp [stepState]
    · rw [List.flatMap_map]
      exact forLoop_output
        (fun s x => matchMaker_fills seqId nowMs price s x) _ _

theorem matchOrder_fills (book : OrderBook) (taker : Order) :
    (matchOrder book taker seqId nowMs).fills =
      (fillMoments book taker seqId nowMs).map Prod.snd := by
  rw [matchOrder_eq,
    forLoop_output
      (fun s x => matchLevel_fills seqId nowMs taker.side.opposite s x)]
  simp [fillMoments, matchVisits, List.map_flatMap, List.flatMap_assoc,
    Function.comp_def]

end Fills

/-! ## What holds at every entry -/

section Entries

variable {seqId : Nat} {nowMs : UInt64}

structure Visit.Sound (seqId : Nat) (nowMs : UInt64) (start : MatchState)
    (visit : Visit) : Prop where
  run : FillRun seqId nowMs start visit.state
  meets : visit.state.taker.remainingSizeLots ≠ 0 →
    ∃ maker, visit.state.book.get visit.makerId = some maker ∧
      maker.isClosed = false ∧ maker.orderId = visit.makerId ∧
      maker.priceTicks = visit.price ∧ visit.state.Meets maker

theorem levelVisits_sound {start st : MatchState} (hstart : start.Valid)
    {price : UInt64} {later : List UInt64}
    (h : SweepInv seqId nowMs start (price :: later) st) :
    ∀ visit ∈ levelVisits start.taker.side.opposite seqId nowMs st price,
      visit.Sound seqId nowMs start := by
  obtain ⟨hend, hsorted, hcrosses⟩ := h
  rw [List.pairwise_cons] at hsorted
  intro visit hvisit
  unfold levelVisits at hvisit
  split at hvisit
  · cases hvisit
  next hactive =>
  split at hvisit
  · cases hvisit
  next hopen =>
  rw [List.mem_map] at hvisit
  obtain ⟨⟨state, makerId⟩, hmem, rfl⟩ := hvisit
  cases hend with
  | swept run rest =>
      have hlevel : LevelInv seqId nowMs start price later
          (st.book.ordersAtPrice price start.taker.side.opposite) st :=
        ⟨run, fun _ => rfl,
          fun q hq hne => by simpa using rest hactive q hq hne⟩
      obtain ⟨ids, hinv⟩ := visits_induction
        (matchMaker_keeps hstart (hcrosses price (.head _)) hsorted.1) _ _
          hlevel _ hmem
      exact ⟨hinv.run, hinv.meets hstart (hcrosses price (.head _)) hsorted.1⟩
  | selfTrade => exact absurd rfl hopen

theorem matchVisits_sound {book : OrderBook} {taker : Order}
    (hvalid : (MatchState.mk book taker []).Valid) :
    ∀ visit ∈ matchVisits book taker seqId nowMs,
      visit.Sound seqId nowMs ⟨book, taker, []⟩ := by
  intro visit hvisit
  rw [matchVisits, List.mem_flatMap] at hvisit
  obtain ⟨level, hlevel, hmem⟩ := hvisit
  obtain ⟨later, hinv⟩ := visits_induction (matchLevel_keeps hvalid) _ _
    (sweepInv_start hvalid seqId nowMs) _ hlevel
  exact levelVisits_sound hvalid hinv visit hmem

theorem Visit.Sound.fill {start : MatchState} {visit : Visit}
    (h : visit.Sound seqId nowMs start) {fill : Fill}
    (hfill : fill ∈ visit.fills seqId nowMs) :
    ∃ maker, visit.state.book.get visit.makerId = some maker ∧
      visit.state.Meets maker ∧
      maker.traderId ≠ visit.state.taker.traderId ∧
      fill = makeFill visit.state.taker maker maker.priceTicks
        (visit.state.fillQty maker) seqId nowMs := by
  unfold Visit.fills matchMaker at hfill
  by_cases hfull : visit.state.taker.remainingSizeLots = 0
  · simp [hfull, stepState] at hfill
  obtain ⟨maker, hget, hopen, hid, hprice, hmeets⟩ := h.meets hfull
  simp only [hfull, if_false, hget, hopen, Bool.false_eq_true] at hfill
  by_cases htrader : maker.traderId = visit.state.taker.traderId
  · simp [htrader, stepState] at hfill
  · refine ⟨maker, hget, hmeets, htrader, ?_⟩
    rw [hprice]
    simpa [htrader, stepState, MatchState.fillQty] using hfill

/-- Every fill is made against the first order that the taker then meets. -/
theorem exists_moment {book : OrderBook} {taker : Order}
    (hvalid : (MatchState.mk book taker []).Valid) {fill : Fill}
    (hfill : fill ∈ (matchOrder book taker seqId nowMs).fills) :
    ∃ st maker, FillRun seqId nowMs ⟨book, taker, []⟩ st ∧ st.Meets maker ∧
      maker.traderId ≠ st.taker.traderId ∧
      fill = makeFill st.taker maker maker.priceTicks (st.fillQty maker) seqId
        nowMs := by
  rw [matchOrder_fills] at hfill
  obtain ⟨moment, hmoment, rfl⟩ := List.mem_map.mp hfill
  obtain ⟨visit, hvisit, hpaired⟩ := List.mem_flatMap.mp hmoment
  obtain ⟨made, hmade, rfl⟩ := List.mem_map.mp hpaired
  have hsound := matchVisits_sound hvalid visit hvisit
  obtain ⟨maker, -, hmeets, htrader, hmaker⟩ := hsound.fill hmade
  exact ⟨visit.state, maker, hsound.run, hmeets, htrader, hmaker⟩

end Entries

end ClobApi
