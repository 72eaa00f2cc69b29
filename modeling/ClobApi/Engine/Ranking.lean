import ClobApi.Engine.Greedy

/-!
# One side of a book as a single queue

The resting orders of a side stand in one list, best price first and in queue
order within a price.  The list is determined by the orders that rest, so each
write of the book is a list operation on it.
-/

namespace ClobApi

open Foundation

def OrderBook.ranking (book : OrderBook) (side : Side) : List Order :=
  (book.pricesByPriority side).flatMap (book.restingAt side)

/-! ## Priority orders strictly -/

section Precedes

variable {side : Side} {order order' : Order}

theorem eq_of_pairwise_precedes {l l' : List Order}
    (hl : l.Pairwise (Order.Precedes side))
    (hl' : l'.Pairwise (Order.Precedes side)) (hmem : ∀ a, a ∈ l ↔ a ∈ l') :
    l = l' := by
  have hnodup : ∀ {orders : List Order},
      orders.Pairwise (Order.Precedes side) → orders.Nodup := fun h =>
    h.imp fun hprecedes heq => by
      subst heq
      exact hprecedes.asymm hprecedes
  refine List.Perm.eq_of_pairwise ?_ hl hl'
    ((List.perm_ext_iff_of_nodup (hnodup hl) (hnodup hl')).mpr hmem)
  intro a b _ _ hab hba
  exact absurd hba hab.asymm

/-- Priority looks at the price and the sequence number only. -/
def Order.rank (order : Order) : UInt64 × Nat :=
  (order.priceTicks, order.createdSequence)

theorem pairwise_precedes_of_rank {l l' : List Order}
    (hsub : (l.map Order.rank).Sublist (l'.map Order.rank))
    (h : l'.Pairwise (Order.Precedes side)) :
    l.Pairwise (Order.Precedes side) := by
  have hranks : (l'.map Order.rank).Pairwise (Prod.Lex side.Better (· < ·)) :=
    List.pairwise_map.mpr h
  have hfewer : (l.map Order.rank).Pairwise
      (Prod.Lex side.Better (· < ·)) := hranks.sublist hsub
  exact (List.pairwise_map (f := Order.rank)).mp hfewer

instance (side : Side) : DecidableRel side.Better := fun p q => by
  cases side <;> unfold Side.Better <;> infer_instance

theorem Order.Precedes.of_better {later : Order}
    (h : order.Precedes side later) {price : UInt64}
    (hbetter : side.Better price order.priceTicks) :
    side.Better price later.priceTicks := by
  unfold Order.Precedes at h
  rw [Prod.lex_def] at h
  cases side <;> simp only [Side.Better] at h hbetter ⊢ <;> grind

theorem Order.precedes_of_later
    (hnot : ¬ side.Better order'.priceTicks order.priceTicks)
    (hlater : order.createdSequence < order'.createdSequence) :
    order.Precedes side order' := by
  unfold Order.Precedes
  rw [Prod.lex_def]
  cases side <;> simp only [Side.Better] at hnot ⊢ <;> grind

/-- The order takes its place behind those at its price. -/
def Order.queueIn (order : Order) (queue : List Order) : List Order :=
  queue.orderedInsert
    (fun a b => order.side.Better a.priceTicks b.priceTicks) order

theorem pairwise_precedes_queueIn {queue : List Order}
    (h : queue.Pairwise (Order.Precedes order.side))
    (hlater : ∀ older ∈ queue,
      older.createdSequence < order.createdSequence) :
    (order.queueIn queue).Pairwise (Order.Precedes order.side) := by
  unfold Order.queueIn
  induction queue with
  | nil => exact List.pairwise_singleton _ _
  | cons first queue ih =>
      have hparts := List.pairwise_cons.mp h
      rw [List.orderedInsert_cons]
      split
      · next hbetter =>
          refine List.pairwise_cons.mpr ⟨fun later hmem => ?_, h⟩
          rcases List.mem_cons.mp hmem with rfl | hmem
          · exact .left _ _ hbetter
          · exact .left _ _ ((hparts.1 later hmem).of_better hbetter)
      · next hnot =>
          have hrest := ih hparts.2 fun older hmem =>
            hlater older (.tail _ hmem)
          refine List.pairwise_cons.mpr ⟨fun later hmem => ?_, hrest⟩
          rcases (List.mem_orderedInsert _).mp hmem with rfl | hmem
          · exact Order.precedes_of_later hnot (hlater first (.head _))
          · exact hparts.1 later hmem

end Precedes

namespace OrderBook

variable {book book' : OrderBook} {side : Side} {order taker : Order}

theorem Valid.mem_ranking (hvalid : book.Valid) :
    order ∈ book.ranking side ↔ book.Resting side order := by
  unfold ranking
  rw [List.mem_flatMap, hvalid.resting_iff]
  constructor
  · rintro ⟨price, -, hmem⟩
    obtain ⟨hget, hside, -, hopen⟩ := hvalid.mem_restingAt.mp hmem
    exact ⟨hget, hside, hopen⟩
  · rintro ⟨hget, hside, hopen⟩
    have hqueued := hvalid.queued_iff.mpr ⟨order, hget, hside, rfl, hopen⟩
    exact ⟨order.priceTicks,
      (hvalid.mem_pricesByPriority side _).mpr (List.ne_nil_of_mem hqueued),
      hvalid.mem_restingAt.mpr ⟨hget, hside, rfl, hopen⟩⟩

theorem Valid.ranking_sorted (hvalid : book.Valid) (side : Side) :
    (book.ranking side).Pairwise (Order.Precedes side) :=
  hvalid.restingAt_sorted (book.pricesByPriority_sorted side)

/-- The ranking is the one sorted list of the resting orders. -/
theorem Valid.ranking_eq (hvalid : book.Valid) {l : List Order}
    (hl : l.Pairwise (Order.Precedes side))
    (hmem : ∀ order, order ∈ l ↔ book.Resting side order) :
    book.ranking side = l :=
  eq_of_pairwise_precedes (hvalid.ranking_sorted side) hl fun order => by
    rw [hvalid.mem_ranking, hmem]

theorem Valid.crossing_eq_takeWhile (hvalid : book.Valid) (taker : Order) :
    book.crossing taker = (book.ranking taker.side.opposite).takeWhile
      fun maker => taker.Crosses maker.priceTicks := by
  have hsorted := hvalid.ranking_sorted taker.side.opposite
  refine eq_of_pairwise_precedes (hvalid.crossing_sorted taker)
    (hsorted.sublist (List.takeWhile_sublist _)) fun maker => ?_
  rw [mem_takeWhile_iff hsorted, hvalid.mem_crossing, hvalid.mem_ranking,
    decide_eq_true_eq]
  intro a b hprecedes hb
  refine decide_eq_true ?_
  have hcross : taker.Crosses b.priceTicks := of_decide_eq_true hb
  unfold Order.Precedes at hprecedes
  rw [Prod.lex_def] at hprecedes
  rcases hprecedes with hbetter | ⟨hsame, -⟩
  · exact hcross.of_better hbetter
  · dsimp only at hsame
    rwa [hsame]

theorem Valid.offers_ranking (hvalid : book.Valid) (side : Side) :
    book.Offers (book.ranking side) :=
  hvalid.offers_restingAt (book.pricesByPriority_sorted side)

/-! ## Writes -/

theorem Valid.ranking_insert (hvalid : book.Valid)
    (hvalid' : (book.insert order).Valid) (hopen : order.isClosed = false)
    (hfresh : book.get order.orderId = none)
    (hlater : ∀ id older, book.get id = some older →
      older.createdSequence < order.createdSequence) (side : Side) :
    (book.insert order).ranking side =
      if side = order.side then order.queueIn (book.ranking side)
      else book.ranking side := by
  have hkept : ∀ {side older}, book.Resting side older →
      older.orderId ≠ order.orderId := by
    intro side older hresting hsame
    have hget := (hvalid.resting_iff.mp hresting).1
    rw [hsame, hfresh] at hget
    cases hget
  have hresting : ∀ side older, (book.insert order).Resting side older ↔
      (older = order ∧ side = order.side) ∨ book.Resting side older := by
    intro side older
    rw [hvalid'.resting_iff, get_insert]
    by_cases hid : older.orderId = order.orderId
    · rw [if_pos hid]
      constructor
      · rintro ⟨hsome, rfl, -⟩
        obtain rfl := Option.some.inj hsome
        exact .inl ⟨rfl, rfl⟩
      · rintro (⟨rfl, rfl⟩ | hold)
        · exact ⟨rfl, rfl, hopen⟩
        · exact absurd hid (hkept hold)
    · rw [if_neg hid, ← hvalid.resting_iff]
      constructor
      · exact .inr
      · rintro (⟨rfl, -⟩ | hold)
        · exact absurd rfl hid
        · exact hold
  by_cases hside : side = order.side
  · subst hside
    rw [if_pos rfl]
    refine hvalid'.ranking_eq ?_ fun older => ?_
    · refine pairwise_precedes_queueIn (hvalid.ranking_sorted _) ?_
      intro older hmem
      have hget := (hvalid.resting_iff.mp (hvalid.mem_ranking.mp hmem)).1
      exact hlater _ _ hget
    · rw [Order.queueIn, List.mem_orderedInsert, hvalid.mem_ranking, hresting]
      simp
  · rw [if_neg hside]
    refine hvalid'.ranking_eq (hvalid.ranking_sorted side) fun older => ?_
    rw [hvalid.mem_ranking, hresting]
    simp [hside]

theorem Valid.ranking_cancel (hvalid : book.Valid) {id : OrderId}
    (hget : book.get id = some order) (hopen : order.isClosed = false)
    (side : Side) :
    (book.cancel id).1.ranking side =
      (book.ranking side).filter fun order => order.orderId ≠ id := by
  have hvalid' := cancel_valid hvalid hget hopen
  refine hvalid'.ranking_eq ((hvalid.ranking_sorted side).filter _) ?_
  intro other
  rw [List.mem_filter, hvalid.mem_ranking, hvalid.resting_iff,
    hvalid'.resting_iff, cancel_eq_settle hget hopen, get_settle]
  by_cases hid : other.orderId = id
  · subst hid
    rw [if_pos rfl, hget]
    constructor
    · rintro ⟨-, hne⟩
      simp at hne
    · rintro ⟨hsome, -, hother⟩
      obtain rfl := Option.some.inj hsome
      cases hother
  · simp [hid]

/-! ## Matching -/

def leftBehind (shares : List Share) (seqId : Nat) (queue : List Order) :
    List Order :=
  (shares.filterMap fun share =>
      if (share.after seqId).isClosed then none
      else some (share.after seqId)) ++
    queue.drop shares.length

section TakeAll

variable {st : MatchState} {shares : List Share} {seqId : Nat} {nowMs : UInt64}

theorem rank_leftBehind_sublist {queue : List Order}
    (hserved : shares.map Share.maker <+: queue) :
    ((leftBehind shares seqId queue).map Order.rank).Sublist
      (queue.map Order.rank) := by
  obtain ⟨behind, rfl⟩ := hserved
  rw [leftBehind, List.drop_left' (List.length_map _), List.map_append,
    List.map_append]
  refine List.Sublist.append ?_ (.refl _)
  induction shares with
  | nil => exact .slnil
  | cons share shares ih =>
      have hrank : (share.after seqId).rank = share.maker.rank := rfl
      rw [List.filterMap_cons, List.map_cons, List.map_cons]
      split
      · exact ih.cons _
      · next order hleft =>
          split at hleft
          · cases hleft
          · obtain rfl := Option.some.inj hleft
            rw [List.map_cons, hrank]
            exact ih.cons_cons _

theorem Valid.ranking_takeAll (hvalid : st.book.Valid)
    (hvalid' : (st.takeAll seqId nowMs shares).book.Valid)
    (hserved : shares.map Share.maker <+: st.book.ranking side) :
    (st.takeAll seqId nowMs shares).book.ranking side =
      leftBehind shares seqId (st.book.ranking side) := by
  have hoffers := (hvalid.offers_ranking side).mono hserved.sublist
  have hdistinct := (hvalid.offers_ranking side).distinct
  have hsplit : st.book.ranking side = shares.map Share.maker ++
      (st.book.ranking side).drop shares.length := by
    obtain ⟨behind, hbehind⟩ := hserved
    rw [← hbehind, List.drop_left' (List.length_map _)]
  refine hvalid'.ranking_eq ?_ fun order => ?_
  · exact pairwise_precedes_of_rank (rank_leftBehind_sublist hserved)
      (hvalid.ranking_sorted side)
  rw [hvalid'.resting_iff, leftBehind, List.mem_append, List.mem_filterMap]
  constructor
  · rintro (⟨share, hshare, hleft⟩ | hbehind)
    · split at hleft
      · cases hleft
      · next hopen =>
          obtain rfl := Option.some.inj hleft
          have hmaker := hserved.subset (List.mem_map_of_mem hshare)
          exact ⟨get_takeAll_of_mem hoffers hshare,
            (hvalid.resting_iff.mp (hvalid.mem_ranking.mp hmaker)).2.1,
            by simpa using hopen⟩
    · have hmem : order ∈ st.book.ranking side := List.mem_of_mem_drop hbehind
      obtain ⟨hget, hside, hopen⟩ :=
        hvalid.resting_iff.mp (hvalid.mem_ranking.mp hmem)
      refine ⟨?_, hside, hopen⟩
      rw [get_takeAll_of_not_mem, hget]
      intro share hshare hsame
      rw [hsplit, List.map_append, List.nodup_append] at hdistinct
      exact hdistinct.2.2 _
        (List.mem_map_of_mem (List.mem_map_of_mem hshare)) _
        (List.mem_map_of_mem hbehind) hsame
  · rintro ⟨hget, hside, hopen⟩
    by_cases hserves : ∃ share ∈ shares,
        share.maker.orderId = order.orderId
    · obtain ⟨share, hshare, hsame⟩ := hserves
      rw [← hsame, get_takeAll_of_mem hoffers hshare] at hget
      obtain rfl := Option.some.inj hget
      exact .inl ⟨share, hshare, by simp [hopen]⟩
    · have hnot : ∀ share ∈ shares, share.maker.orderId ≠ order.orderId :=
        fun share hshare hsame => hserves ⟨share, hshare, hsame⟩
      rw [get_takeAll_of_not_mem hnot] at hget
      have hmem := hvalid.mem_ranking.mpr
        (hvalid.resting_iff.mpr ⟨hget, hside, hopen⟩)
      rw [hsplit] at hmem
      refine .inr ((List.mem_append.mp hmem).resolve_left fun hmaker => ?_)
      obtain ⟨share, hshare, rfl⟩ := List.mem_map.mp hmaker
      exact hnot share hshare rfl

theorem Valid.ranking_takeAll_of_ne (hvalid : st.book.Valid)
    (hvalid' : (st.takeAll seqId nowMs shares).book.Valid) {side' : Side}
    (hserved : shares.map Share.maker <+: st.book.ranking side)
    (hside : side' ≠ side) :
    (st.takeAll seqId nowMs shares).book.ranking side' =
      st.book.ranking side' := by
  have hoffers := (hvalid.offers_ranking side).mono hserved.sublist
  refine hvalid'.ranking_eq (hvalid.ranking_sorted side') fun order => ?_
  rw [hvalid.mem_ranking, hvalid.resting_iff, hvalid'.resting_iff]
  by_cases hserves : ∃ share ∈ shares, share.maker.orderId = order.orderId
  · -- a maker has the side of the makers before and after
    obtain ⟨share, hshare, hsame⟩ := hserves
    have hmaker : share.maker ∈ st.book.ranking side :=
      hserved.subset (List.mem_map_of_mem hshare)
    obtain ⟨hget, hmakerSide, -⟩ :=
      hvalid.resting_iff.mp (hvalid.mem_ranking.mp hmaker)
    rw [← hsame, hget, get_takeAll_of_mem hoffers hshare]
    constructor
    · rintro ⟨hsome, rfl, -⟩
      obtain rfl := Option.some.inj hsome
      exact absurd hmakerSide hside
    · rintro ⟨hsome, rfl, -⟩
      obtain rfl := Option.some.inj hsome
      exact absurd hmakerSide hside
  · have hnot : ∀ share ∈ shares, share.maker.orderId ≠ order.orderId :=
      fun share hshare hsame => hserves ⟨share, hshare, hsame⟩
    rw [get_takeAll_of_not_mem hnot]

end TakeAll

end OrderBook

end ClobApi
