import ClobApi.Engine.Writes

/-!
# Renumbering

Matching stamps orders and fills with the sequence number of the taker and never
looks at a stamp, so it commutes with every change of the sequence numbers.
-/

namespace ClobApi

open Foundation

def Order.renumber (ρ : Nat → Nat) (order : Order) : Order :=
  { order with
    createdSequence := ρ order.createdSequence
    lastUpdateSequence := ρ order.lastUpdateSequence }

def Fill.renumber (ρ : Nat → Nat) (fill : Fill) : Fill :=
  { fill with sequenceId := ρ fill.sequenceId }

def OrderBook.renumber (ρ : Nat → Nat) (book : OrderBook) : OrderBook :=
  { book with orders := book.orders.mapValues (Order.renumber ρ) }

def MatchState.renumber (ρ : Nat → Nat) (st : MatchState) : MatchState where
  book := st.book.renumber ρ
  taker := st.taker.renumber ρ
  fills := st.fills.map (Fill.renumber ρ)

section Renumber

variable (ρ : Nat → Nat)

/-! ## Orders -/

@[simp] theorem Order.renumber_remainingSizeLots (order : Order) :
    (order.renumber ρ).remainingSizeLots = order.remainingSizeLots := rfl

theorem buildOrder_renumber (crypto : Crypto) (signed : SignedOrder)
    (env : CallEnv) (seqId : Nat) :
    (Engine.buildOrder crypto signed env seqId).renumber ρ =
      Engine.buildOrder crypto signed env (ρ seqId) := rfl

theorem applyFillTo_renumber (order : Order) (qty : UInt64) (seqId : Nat) :
    applyFillTo (order.renumber ρ) qty (ρ seqId) =
      (applyFillTo order qty seqId).renumber ρ := rfl

theorem cancelTaker_renumber (taker : Order) (seqId : Nat) :
    cancelTaker (taker.renumber ρ) (ρ seqId) =
      (cancelTaker taker seqId).renumber ρ := rfl

theorem makeFill_renumber (taker maker : Order) (price qty : UInt64)
    (seqId : Nat) (nowMs : UInt64) :
    makeFill (taker.renumber ρ) (maker.renumber ρ) price qty (ρ seqId) nowMs =
      (makeFill taker maker price qty seqId nowMs).renumber ρ := rfl

/-! ## Books -/

namespace OrderBook

@[simp] theorem get_renumber (book : OrderBook) (id : OrderId) :
    (book.renumber ρ).get id = (book.get id).map (Order.renumber ρ) :=
  HashMap.get?_mapValues _ _ _

theorem updateLevels_renumber (book : OrderBook) (side : Side)
    (f : Levels → Levels) :
    (book.renumber ρ).updateLevels side f =
      (book.updateLevels side f).renumber ρ := by
  cases side <;> rfl

theorem insert_renumber (book : OrderBook) (order : Order) :
    (book.renumber ρ).insert (order.renumber ρ) =
      (book.insert order).renumber ρ := by
  unfold insert
  rw [← updateLevels_renumber]
  unfold renumber
  rw [HashMap.mapValues_insert]
  rfl

theorem modify_renumber (book : OrderBook) (id : OrderId) {f g : Order → Order}
    (hcomm : ∀ order, (f order).renumber ρ = g (order.renumber ρ)) :
    (book.renumber ρ).modify id g = (book.modify id f).renumber ρ := by
  unfold modify renumber
  rw [HashMap.mapValues_modify _ hcomm]

theorem removeFromQueueInner_renumber (book : OrderBook) (id : OrderId) :
    (book.renumber ρ).removeFromQueueInner id =
      (book.removeFromQueueInner id).renumber ρ := by
  unfold removeFromQueueInner
  rw [get_renumber]
  cases book.get id with
  | none => rfl
  | some order => exact updateLevels_renumber ρ _ _ _

theorem cancel_renumber (book : OrderBook) (id : OrderId) :
    ((book.renumber ρ).cancel id).1 = (book.cancel id).1.renumber ρ := by
  unfold cancel cancelWithStatus
  rw [get_renumber]
  cases book.get id with
  | none => rfl
  | some order =>
      change (if order.isClosed = true then _ else _ : OrderBook × Bool).1 = _
      split
      · next hclosed => simp only [if_pos hclosed]
      · next hopen =>
          simp only [if_neg hopen]
          rw [← removeFromQueueInner_renumber, modify_renumber]
          exact fun _ => rfl

end OrderBook

/-! ## Matching -/

theorem fillMaker_renumber (book : OrderBook) (makerId : OrderId) (qty : UInt64)
    (seqId : Nat) :
    fillMaker (book.renumber ρ) makerId qty (ρ seqId) =
      (fillMaker book makerId qty seqId).renumber ρ := by
  have hmodify := OrderBook.modify_renumber ρ book makerId
    (f := fun maker => applyFillTo maker qty seqId)
    (g := fun maker => applyFillTo maker qty (ρ seqId))
    fun order => (applyFillTo_renumber ρ order qty seqId).symm
  unfold fillMaker
  simp only [hmodify, OrderBook.get_renumber, Option.any_map]
  change (if Option.any Order.isClosed _ = true then _ else _) = _
  split
  · exact OrderBook.removeFromQueueInner_renumber ρ _ _
  · rfl

theorem matchMaker_renumber (price : UInt64) (seqId : Nat) (nowMs : UInt64)
    (st : MatchState) (makerId : OrderId) :
    matchMaker price (ρ seqId) nowMs (st.renumber ρ) makerId =
      mapStep (MatchState.renumber ρ)
        (matchMaker price seqId nowMs st makerId) := by
  unfold matchMaker
  simp only [MatchState.renumber, Order.renumber_remainingSizeLots,
    OrderBook.get_renumber]
  split
  · rfl
  cases st.book.get makerId with
  | none => rfl
  | some maker =>
      change (if maker.isClosed = true then _ else
        if maker.traderId = st.taker.traderId then _ else _) = _
      by_cases hclosed : maker.isClosed = true
      · simp only [if_pos hclosed]
        rfl
      by_cases htrader : maker.traderId = st.taker.traderId
      · simp only [if_neg hclosed, if_pos htrader]
        have htaker := cancelTaker_renumber ρ st.taker seqId
        exact congrArg
          (fun taker => ForInStep.done { st.renumber ρ with taker }) htaker
      · simp only [if_neg hclosed, if_neg htrader, fillMaker_renumber,
          applyFillTo_renumber, makeFill_renumber, mapStep,
          MatchState.renumber, List.map_append, List.map_singleton,
          Order.renumber_remainingSizeLots]

theorem matchLevel_renumber (makerSide : Side) (seqId : Nat) (nowMs : UInt64)
    (st : MatchState) (price : UInt64) :
    matchLevel makerSide (ρ seqId) nowMs (st.renumber ρ) price =
      mapStep (MatchState.renumber ρ)
        (matchLevel makerSide seqId nowMs st price) := by
  unfold matchLevel
  change (if st.taker.remainingSizeLots = 0 then _ else
    if st.taker.isClosed = true then _ else _) = _
  split
  · rfl
  split
  · rfl
  · exact congrArg ForInStep.yield
      (forLoop_map (matchMaker_renumber ρ price seqId nowMs) _ st)

theorem matchOrder_renumber (book : OrderBook) (taker : Order) (seqId : Nat)
    (nowMs : UInt64) :
    matchOrder (book.renumber ρ) (taker.renumber ρ) (ρ seqId) nowMs =
      (matchOrder book taker seqId nowMs).renumber ρ := by
  rw [matchOrder_eq, matchOrder_eq]
  exact forLoop_map (matchLevel_renumber ρ _ seqId nowMs) _ ⟨book, taker, []⟩

theorem residualBook_renumber (st : MatchState) :
    (st.renumber ρ).residualBook = st.residualBook.renumber ρ := by
  unfold MatchState.residualBook
  change (if !st.taker.isClosed ∧ st.taker.remainingSizeLots > 0 then
    (st.renumber ρ).book.insert (st.renumber ρ).taker
    else (st.renumber ρ).book) = _
  split
  · exact OrderBook.insert_renumber ρ _ _
  · rfl

end Renumber

/-! ## Renumberings of a prefix -/

structure Renumbers (ρ : Nat → Nat) (next next' : Nat) : Prop where
  mono : StrictMono ρ
  bound : ∀ k < next, ρ k < next'

/-- `ρ` below `next`; from there on the numbers follow each other. -/
def renumberFrom (ρ : Nat → Nat) (next next' k : Nat) : Nat :=
  if k < next then ρ k else next' + (k - next)

section Prefix

variable {ρ : Nat → Nat} {next next' : Nat}

theorem renumberFrom_lt {k : Nat} (hk : k < next) :
    renumberFrom ρ next next' k = ρ k := if_pos hk

theorem renumberFrom_add (count : Nat) :
    renumberFrom ρ next next' (next + count) = next' + count := by
  unfold renumberFrom
  rw [if_neg (by omega)]
  omega

theorem Renumbers.later (h : Renumbers ρ next next') {later : Nat}
    (hle : next' ≤ later) : Renumbers ρ next later :=
  ⟨h.mono, fun k hk => Nat.lt_of_lt_of_le (h.bound k hk) hle⟩

theorem Renumbers.renumberFrom (h : Renumbers ρ next next') :
    Renumbers (renumberFrom ρ next next') next next' where
  mono := by
    intro j k hjk
    have hmono := h.mono hjk
    have hbound := h.bound j
    unfold ClobApi.renumberFrom
    split
    · split
      · exact hmono
      · omega
    · rw [if_neg (by omega)]
      omega
  bound := by
    intro k hk
    rw [renumberFrom_lt hk]
    exact h.bound k hk

theorem Renumbers.add (h : Renumbers ρ next next')
    (haligned : ∀ count, ρ (next + count) = next' + count) (count : Nat) :
    Renumbers ρ (next + count) (next' + count) := by
  refine ⟨h.mono, fun k hk => ?_⟩
  have hlt := h.mono hk
  rwa [haligned] at hlt

end Prefix

/-! ## Bounds -/

/-- Renumbering looks at no sequence number from `bound` on. -/
def NumbersBelow {α : Type} (renumber : (Nat → Nat) → α → α) (bound : Nat)
    (a : α) : Prop :=
  ∀ ρ ρ', (∀ k < bound, ρ k = ρ' k) → renumber ρ a = renumber ρ' a

section Bounds

variable {bound : Nat} {book : OrderBook}

theorem NumbersBelow.mono {α : Type} {renumber : (Nat → Nat) → α → α}
    {bound' : Nat} {a : α} (h : NumbersBelow renumber bound a)
    (hle : bound ≤ bound') : NumbersBelow renumber bound' a :=
  fun ρ ρ' hagree => h ρ ρ' fun k hk => hagree k (by omega)

/-- Because matching commutes with renumbering, it adds the taker's number. -/
theorem NumbersBelow.matchOrder {taker : Order}
    (hbook : NumbersBelow OrderBook.renumber bound book)
    (htaker : NumbersBelow Order.renumber (bound + 1) taker) (nowMs : UInt64) :
    NumbersBelow MatchState.renumber (bound + 1)
      (ClobApi.matchOrder book taker bound nowMs) := by
  intro ρ ρ' hagree
  rw [← matchOrder_renumber, ← matchOrder_renumber, htaker ρ ρ' hagree,
    hagree bound (by omega),
    hbook ρ ρ' fun k hk => hagree k (by omega)]

theorem NumbersBelow.residualBook {st : MatchState}
    (h : NumbersBelow MatchState.renumber bound st) :
    NumbersBelow OrderBook.renumber bound st.residualBook := by
  intro ρ ρ' hagree
  rw [← residualBook_renumber, ← residualBook_renumber, h ρ ρ' hagree]

theorem NumbersBelow.cancel (h : NumbersBelow OrderBook.renumber bound book)
    (id : OrderId) : NumbersBelow OrderBook.renumber bound
      (book.cancel id).1 := by
  intro ρ ρ' hagree
  rw [← OrderBook.cancel_renumber, ← OrderBook.cancel_renumber, h ρ ρ' hagree]

theorem buildOrder_numbers (crypto : Crypto) (signed : SignedOrder)
    (env : CallEnv) (seqId : Nat) :
    NumbersBelow Order.renumber (seqId + 1)
      (Engine.buildOrder crypto signed env seqId) := by
  intro ρ ρ' hagree
  rw [buildOrder_renumber, buildOrder_renumber, hagree seqId (by omega)]

end Bounds

end ClobApi
