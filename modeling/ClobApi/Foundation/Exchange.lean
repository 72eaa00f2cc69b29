import ClobApi.Foundation.Greedy
import ClobApi.Foundation.Trace
import Mathlib.Algebra.BigOperators.Group.List.Basic
import Mathlib.Data.List.Sort
import Mathlib.Order.Lattice

/-!
# A two-sided exchange

An exchange keeps one queue of waiting offers for each way of trading, best
price first and first come first served within a price.  A new offer is dealt
the greedy allotment along the offers that it accepts; what it still wants
waits in its own queue, unless an offer of its own trader stopped it.

An `Exchange` carries its invariant, so no operation can cross it or leave an
empty offer in it.
-/

namespace ClobApi.Foundation

inductive Way where
  | buy
  | sell
  deriving DecidableEq, Repr

structure Offer (ι ω π : Type) where
  id : ι
  owner : ω
  way : Way
  price : π
  lots : Nat
  deriving DecidableEq, Repr

structure Trade (ι π : Type) where
  taker : ι
  maker : ι
  price : π
  lots : Nat
  deriving DecidableEq, Repr

namespace Way

def opposite : Way → Way
  | .buy => .sell
  | .sell => .buy

theorem eq_opposite {way way' : Way} (h : way ≠ way') :
    way = way'.opposite := by
  cases way <;> cases way' <;> simp_all [opposite]

theorem opposite_ne (way : Way) : way.opposite ≠ way := by
  cases way <;> nofun

variable {π : Type} [LinearOrder π]

/-- Offers of this way at `p` go before those at `q`. -/
def Better : Way → π → π → Prop
  | .buy, p, q => q < p
  | .sell, p, q => p < q

instance (way : Way) : DecidableRel (way.Better (π := π)) := fun p q => by
  cases way <;> unfold Better <;> infer_instance

theorem Better.asymm {way : Way} {p q : π} (h : way.Better p q) :
    ¬ way.Better q p := by
  cases way <;> exact lt_asymm h

theorem Better.of_not_better {way : Way} {p q r : π} (h : way.Better p q)
    (hqr : ¬ way.Better r q) : way.Better p r := by
  cases way with
  | buy => exact lt_of_le_of_lt (not_lt.mp hqr) h
  | sell => exact lt_of_lt_of_le h (not_lt.mp hqr)

theorem not_better_trans {way : Way} {p q r : π} (hqp : ¬ way.Better q p)
    (hrq : ¬ way.Better r q) : ¬ way.Better r p := by
  cases way with
  | buy => exact not_lt.mpr (le_trans (not_lt.mp hrq) (not_lt.mp hqp))
  | sell => exact not_lt.mpr (le_trans (not_lt.mp hqp) (not_lt.mp hrq))

end Way

/-! ## Shares of the waiting offers -/

section Shares

variable {ι ω π : Type}

abbrev Portion (ι ω π : Type) := Offer ι ω π × Nat

def Portion.left (share : Portion ι ω π) : Option (Offer ι ω π) :=
  if share.2 < share.1.lots then
    some { share.1 with lots := share.1.lots - share.2 }
  else none

/-- What the taker still wants and may wait for. -/
def Offer.rest (taker : Offer ι ω π) (out : Allotment (Offer ι ω π)) :
    Option (Offer ι ω π) :=
  if out.wanted = 0 ∨ out.blocked = true then none
  else some { taker with lots := out.wanted }

def leave (shares : List (Portion ι ω π)) (queue : List (Offer ι ω π)) :
    List (Offer ι ω π) :=
  shares.filterMap Portion.left ++ queue.drop shares.length

variable {shares : List (Portion ι ω π)} {queue : List (Offer ι ω π)}
  {offer : Offer ι ω π}

theorem Portion.left_eq_some {share : Portion ι ω π}
    (h : share.left = some offer) :
    offer.way = share.1.way ∧ offer.price = share.1.price ∧
      0 < offer.lots := by
  unfold Portion.left at h
  split at h
  · next hlt =>
      cases h
      exact ⟨rfl, rfl, Nat.sub_pos_of_lt hlt⟩
  · cases h

theorem Offer.rest_eq_some {taker : Offer ι ω π}
    {out : Allotment (Offer ι ω π)} (h : taker.rest out = some offer) :
    offer = { taker with lots := out.wanted } ∧ out.wanted ≠ 0 ∧
      out.blocked = false := by
  unfold Offer.rest at h
  split at h
  · cases h
  · next hwaits =>
      cases h
      exact ⟨rfl, by simpa [not_or] using hwaits⟩

theorem eq_append_of_served (hserved : shares.map Prod.fst <+: queue) :
    queue = shares.map Prod.fst ++ queue.drop shares.length := by
  obtain ⟨behind, rfl⟩ := hserved
  rw [List.drop_left' (List.length_map _)]

theorem mem_leave : offer ∈ leave shares queue ↔
    (∃ share ∈ shares, share.left = some offer) ∨
      offer ∈ queue.drop shares.length := by
  rw [leave, List.mem_append, List.mem_filterMap]

theorem leave_waited (hserved : shares.map Prod.fst <+: queue)
    (hpos : ∀ old ∈ queue, 0 < old.lots) (h : offer ∈ leave shares queue) :
    0 < offer.lots ∧ ∃ old ∈ queue,
      old.way = offer.way ∧ old.price = offer.price := by
  rcases mem_leave.mp h with ⟨share, hshare, hleft⟩ | hbehind
  · obtain ⟨hway, hprice, hlots⟩ := Portion.left_eq_some hleft
    exact ⟨hlots, share.1, hserved.subset (List.mem_map_of_mem hshare),
      hway.symm, hprice.symm⟩
  · have hmem := List.mem_of_mem_drop hbehind
    exact ⟨hpos offer hmem, offer, hmem, rfl, rfl⟩

theorem leave_prices_sublist (hserved : shares.map Prod.fst <+: queue) :
    ((leave shares queue).map Offer.price).Sublist
      (queue.map Offer.price) := by
  have hleft : ((shares.filterMap Portion.left).map Offer.price).Sublist
      ((shares.map Prod.fst).map Offer.price) := by
    clear hserved
    induction shares with
    | nil => exact .slnil
    | cons share shares ih =>
        rw [List.filterMap_cons, List.map_cons, List.map_cons]
        cases hleft : share.left with
        | none => exact ih.cons _
        | some offer =>
            rw [List.map_cons, (Portion.left_eq_some hleft).2.1]
            exact ih.cons_cons _
  have hqueue := congrArg (List.map Offer.price) (eq_append_of_served hserved)
  rw [List.map_append] at hqueue
  rw [leave, List.map_append, hqueue]
  exact hleft.append (.refl _)

/-! ### Lots -/

def totalLots (queue : List (Offer ι ω π)) : Nat := (queue.map Offer.lots).sum

theorem totalLots_append (queue queue' : List (Offer ι ω π)) :
    totalLots (queue ++ queue') = totalLots queue + totalLots queue' := by
  simp [totalLots]

theorem totalLots_left {share : Portion ι ω π} (hle : share.2 ≤ share.1.lots) :
    totalLots share.left.toList + share.2 = share.1.lots := by
  unfold Portion.left
  split
  · simp [totalLots]
    omega
  · simp [totalLots]
    omega

theorem totalLots_leave (hserved : shares.map Prod.fst <+: queue)
    (hle : ∀ share ∈ shares, share.2 ≤ share.1.lots) :
    totalLots (leave shares queue) + (shares.map Prod.snd).sum =
      totalLots queue := by
  have hleft : totalLots (shares.filterMap Portion.left) +
      (shares.map Prod.snd).sum = totalLots (shares.map Prod.fst) := by
    clear hserved
    induction shares with
    | nil => rfl
    | cons share shares ih =>
        have hrest := ih fun other hother => hle other (.tail _ hother)
        have hshare := totalLots_left (hle share (.head _))
        have hsplit : (share :: shares).filterMap Portion.left =
            share.left.toList ++ shares.filterMap Portion.left := by
          cases hcase : share.left <;> simp [hcase]
        rw [hsplit, totalLots_append]
        simp only [totalLots, List.map_cons, List.sum_cons] at hrest hshare ⊢
        omega
  have hqueue := congrArg totalLots (eq_append_of_served hserved)
  rw [totalLots_append] at hqueue
  rw [leave, totalLots_append]
  omega

theorem totalLots_filter (p : Offer ι ω π → Bool)
    (queue : List (Offer ι ω π)) :
    totalLots (queue.filter p) + totalLots (queue.filter fun offer => !p offer)
      = totalLots queue := by
  induction queue with
  | nil => rfl
  | cons offer queue ih =>
      simp only [totalLots] at ih ⊢
      cases hp : p offer <;> simp [hp] <;> omega

end Shares

/-! ## Queues -/

section Queues

variable {ι ω π : Type} [LinearOrder π]

def Ranked (way : Way) (queue : List (Offer ι ω π)) : Prop :=
  queue.Pairwise fun a b => ¬ way.Better b.price a.price

namespace Offer

/-- Whether the limit of the taker admits a trade at the price. -/
def Accepts (taker : Offer ι ω π) (price : π) : Prop :=
  ¬ taker.way.opposite.Better taker.price price

instance (taker : Offer ι ω π) : DecidablePred taker.Accepts := fun price => by
  unfold Accepts
  infer_instance

/-- The offer takes its place behind those at its price. -/
def enqueue (offer : Offer ι ω π) (queue : List (Offer ι ω π)) :
    List (Offer ι ω π) :=
  queue.orderedInsert (fun a b => offer.way.Better a.price b.price) offer

def allot [DecidableEq ω] (taker : Offer ι ω π) (queue : List (Offer ι ω π)) :
    Allotment (Offer ι ω π) :=
  greedy Offer.lots (fun maker => maker.owner = taker.owner)
    (queue.takeWhile fun maker => taker.Accepts maker.price) taker.lots

def trade (taker : Offer ι ω π) (share : Portion ι ω π) : Trade ι π :=
  ⟨taker.id, share.1.id, share.1.price, share.2⟩

end Offer

theorem not_mem_dropWhile {α : Type} {r : α → α → Prop} {p : α → Bool}
    {l : List α} (hl : l.Pairwise r)
    (hp : ∀ a b, r a b → p b = true → p a = true) :
    ∀ a ∈ l.dropWhile p, p a = false := by
  induction l with
  | nil => simp
  | cons b l ih =>
      rw [List.pairwise_cons] at hl
      by_cases hb : p b = true
      · rw [List.dropWhile_cons_of_pos hb]
        exact ih hl.2
      · rw [List.dropWhile_cons_of_neg hb]
        intro a ha
        rcases List.mem_cons.mp ha with rfl | ha
        · simpa using hb
        · have hfirst := hp b a (hl.1 a ha)
          simpa using fun h => hb (hfirst h)

theorem drop_length_takeWhile {α : Type} (p : α → Bool) (l : List α) :
    l.drop (l.takeWhile p).length = l.dropWhile p := by
  induction l with
  | nil => rfl
  | cons a l ih =>
      by_cases ha : p a = true
      · simp [ha, ih]
      · simp [ha]

variable {offer taker : Offer ι ω π} {queue : List (Offer ι ω π)}

theorem Offer.enqueue_perm (offer : Offer ι ω π) (queue : List (Offer ι ω π)) :
    (offer.enqueue queue).Perm (offer :: queue) :=
  List.perm_orderedInsert _ offer queue

theorem totalLots_enqueue :
    totalLots (offer.enqueue queue) = offer.lots + totalLots queue := by
  unfold totalLots
  rw [((offer.enqueue_perm queue).map _).sum_eq, List.map_cons, List.sum_cons]

theorem Ranked.enqueue {way : Way} (h : Ranked way queue)
    (hway : offer.way = way) : Ranked way (offer.enqueue queue) := by
  subst hway
  unfold Offer.enqueue
  induction queue with
  | nil => exact List.pairwise_singleton _ _
  | cons first queue ih =>
      have hparts := List.pairwise_cons.mp h
      rw [List.orderedInsert_cons]
      split
      · next hbetter =>
          refine List.pairwise_cons.mpr ⟨fun later hlater => ?_, h⟩
          rcases List.mem_cons.mp hlater with rfl | hlater
          · exact hbetter.asymm
          · exact (hbetter.of_not_better (hparts.1 later hlater)).asymm
      · next hnot =>
          refine List.pairwise_cons.mpr ⟨fun later hlater => ?_, ih hparts.2⟩
          rcases (List.mem_orderedInsert _).mp hlater with rfl | hlater
          · exact hnot
          · exact hparts.1 later hlater

theorem Ranked.leave {way : Way} {shares : List (Portion ι ω π)}
    (h : Ranked way queue) (hserved : shares.map Prod.fst <+: queue) :
    Ranked way (leave shares queue) := by
  have hprices := h.map (S := fun p q => ¬ way.Better q p) Offer.price
    fun _ _ hnot => hnot
  exact List.pairwise_map.mp (hprices.sublist (leave_prices_sublist hserved))

theorem Offer.Accepts.of_not_better {p q : π} (h : taker.Accepts q)
    (hqp : ¬ taker.way.opposite.Better q p) : taker.Accepts p :=
  Way.not_better_trans hqp h

section Allot

variable [DecidableEq ω]

theorem Offer.allot_served (taker : Offer ι ω π)
    (queue : List (Offer ι ω π)) :
    (taker.allot queue).shares.map Prod.fst <+: queue :=
  greedy_prefix _ _ |>.trans (List.takeWhile_prefix _)

/-- A taker that may wait has emptied every offer that it accepts. -/
theorem Offer.rest_refuses
    (hranked : Ranked taker.way.opposite queue)
    (h : taker.rest (taker.allot queue) = some offer) {maker : Offer ι ω π}
    (hmaker : maker ∈ leave (taker.allot queue).shares queue) :
    ¬ taker.Accepts maker.price := by
  obtain ⟨-, hwanted, hblocked⟩ := Offer.rest_eq_some h
  have hall : (taker.allot queue).shares = _ :=
    greedy_exhausted _ _ hblocked hwanted
  rw [hall, mem_leave, List.length_map] at hmaker
  rcases hmaker with ⟨share, hshare, hleft⟩ | hbehind
  · obtain ⟨other, -, rfl⟩ := List.mem_map.mp hshare
    simp [Portion.left] at hleft
  · rw [drop_length_takeWhile] at hbehind
    have hrefused := not_mem_dropWhile hranked (fun a b hab hb => decide_eq_true
      (Offer.Accepts.of_not_better (of_decide_eq_true hb) hab)) maker hbehind
    exact of_decide_eq_false hrefused

end Allot

end Queues

/-! ## Exchanges -/

structure Exchange (ι ω π : Type) [LinearOrder π] where
  queue : Way → List (Offer ι ω π)
  waits : ∀ way, ∀ offer ∈ queue way, offer.way = way ∧ 0 < offer.lots
  ranked : ∀ way, Ranked way (queue way)
  uncrossed : ∀ bid ∈ queue .buy, ∀ ask ∈ queue .sell, bid.price < ask.price

inductive Instruction (ι ω π : Type) where
  | submit (offer : Offer ι ω π)
  | withdraw (id : ι)

namespace Exchange

variable {ι ω π : Type} [LinearOrder π]

def empty : Exchange ι ω π where
  queue _ := []
  waits := by simp
  ranked _ := .nil
  uncrossed := by simp

def lots (x : Exchange ι ω π) : Nat :=
  totalLots (x.queue .buy) + totalLots (x.queue .sell)

theorem lots_eq (x : Exchange ι ω π) (way : Way) :
    x.lots = totalLots (x.queue way) + totalLots (x.queue way.opposite) := by
  cases way with
  | buy => rfl
  | sell => exact Nat.add_comm _ _

variable [DecidableEq ι] [DecidableEq ω] (x : Exchange ι ω π)
  (taker : Offer ι ω π)

def withdraw (id : ι) : Exchange ι ω π where
  queue way := (x.queue way).filter fun offer => offer.id ≠ id
  waits way offer h := x.waits way offer (List.mem_of_mem_filter h)
  ranked way := (x.ranked way).filter _
  uncrossed bid hbid ask hask :=
    x.uncrossed bid (List.mem_of_mem_filter hbid) ask
      (List.mem_of_mem_filter hask)

/-- What the taker gets from the other side's queue. -/
def dealt : Allotment (Offer ι ω π) := taker.allot (x.queue taker.way.opposite)

def afterSubmit (way : Way) : List (Offer ι ω π) :=
  if way = taker.way then
    match taker.rest (x.dealt taker) with
    | none => x.queue way
    | some offer => offer.enqueue (x.queue way)
  else leave (x.dealt taker).shares (x.queue way)

end Exchange

/-! ## Submissions keep the invariant -/

namespace Exchange

variable {ι ω π : Type} [LinearOrder π] [DecidableEq ω] {x : Exchange ι ω π}
  {taker offer : Offer ι ω π} {way : Way}

theorem served (x : Exchange ι ω π) (taker : Offer ι ω π) :
    (x.dealt taker).shares.map Prod.fst <+: x.queue taker.way.opposite :=
  Offer.allot_served taker _

theorem afterSubmit_own (x : Exchange ι ω π) (taker : Offer ι ω π) :
    x.afterSubmit taker taker.way =
      match taker.rest (x.dealt taker) with
      | none => x.queue taker.way
      | some offer => offer.enqueue (x.queue taker.way) :=
  if_pos rfl

theorem afterSubmit_opposite (x : Exchange ι ω π) (taker : Offer ι ω π) :
    x.afterSubmit taker taker.way.opposite =
      leave (x.dealt taker).shares (x.queue taker.way.opposite) :=
  if_neg taker.way.opposite_ne

theorem mem_afterSubmit (h : offer ∈ x.afterSubmit taker way) :
    (way = taker.way ∧ taker.rest (x.dealt taker) = some offer) ∨
      (0 < offer.lots ∧ ∃ old ∈ x.queue way,
        old.way = offer.way ∧ old.price = offer.price) := by
  have hold : ∀ {way}, ∀ old ∈ x.queue way, 0 < old.lots :=
    fun old hmem => (x.waits _ old hmem).2
  unfold afterSubmit at h
  split at h
  · next hway =>
      split at h
      · exact .inr ⟨hold _ h, offer, h, rfl, rfl⟩
      · next rest hrest =>
          rcases List.mem_cons.mp ((rest.enqueue_perm _).mem_iff.mp h) with
            rfl | hmem
          · exact .inl ⟨hway, hrest⟩
          · exact .inr ⟨hold _ hmem, offer, hmem, rfl, rfl⟩
  · next hway =>
      obtain rfl := Way.eq_opposite hway
      exact .inr (leave_waited (x.served taker) hold h)

theorem afterSubmit_waits (h : offer ∈ x.afterSubmit taker way) :
    offer.way = way ∧ 0 < offer.lots := by
  rcases mem_afterSubmit h with ⟨hway, hrest⟩ | ⟨hpos, old, hold, hway, -⟩
  · obtain ⟨rfl, hwanted, -⟩ := Offer.rest_eq_some hrest
    exact ⟨hway.symm, Nat.pos_of_ne_zero hwanted⟩
  · exact ⟨hway.symm.trans (x.waits way old hold).1, hpos⟩

theorem afterSubmit_ranked (x : Exchange ι ω π) (taker : Offer ι ω π)
    (way : Way) : Ranked way (x.afterSubmit taker way) := by
  unfold afterSubmit
  split
  · next hway =>
      split
      · exact x.ranked way
      · next rest hrest =>
          obtain ⟨rfl, -⟩ := Offer.rest_eq_some hrest
          exact (x.ranked way).enqueue hway.symm
  · next hway =>
      obtain rfl := Way.eq_opposite hway
      exact (x.ranked _).leave (x.served taker)

theorem afterSubmit_refuses
    (hrest : taker.rest (x.dealt taker) = some offer) {maker : Offer ι ω π}
    (hmaker : maker ∈ x.afterSubmit taker taker.way.opposite) :
    ¬ taker.Accepts maker.price := by
  rw [afterSubmit_opposite] at hmaker
  exact Offer.rest_refuses (x.ranked _) hrest hmaker

theorem afterSubmit_uncrossed {bid ask : Offer ι ω π}
    (hbid : bid ∈ x.afterSubmit taker .buy)
    (hask : ask ∈ x.afterSubmit taker .sell) : bid.price < ask.price := by
  rcases mem_afterSubmit hbid with ⟨hway, hrest⟩ | ⟨-, bid', hbid', -, hp⟩
  · obtain ⟨rfl, -⟩ := Offer.rest_eq_some hrest
    have hopposite : ask ∈ x.afterSubmit taker taker.way.opposite := by
      rwa [← hway]
    have hrefuses := afterSubmit_refuses hrest hopposite
    unfold Offer.Accepts at hrefuses
    rw [← hway] at hrefuses
    exact not_not.mp hrefuses
  · rcases mem_afterSubmit hask with ⟨hway, hrest⟩ | ⟨-, ask', hask', -, hq⟩
    · obtain ⟨rfl, -⟩ := Offer.rest_eq_some hrest
      have hopposite : bid ∈ x.afterSubmit taker taker.way.opposite := by
        rwa [← hway]
      have hrefuses := afterSubmit_refuses hrest hopposite
      unfold Offer.Accepts at hrefuses
      rw [← hway] at hrefuses
      exact not_not.mp hrefuses
    · rw [← hp, ← hq]
      exact x.uncrossed bid' hbid' ask' hask'

end Exchange

namespace Exchange

variable {ι ω π : Type} [LinearOrder π] [DecidableEq ι] [DecidableEq ω]

def submit (x : Exchange ι ω π) (taker : Offer ι ω π) : Exchange ι ω π where
  queue := x.afterSubmit taker
  waits _ _ h := afterSubmit_waits h
  ranked := x.afterSubmit_ranked taker
  uncrossed _ hbid _ hask := afterSubmit_uncrossed hbid hask

def next (x : Exchange ι ω π) : Instruction ι ω π → Exchange ι ω π
  | .submit offer => x.submit offer
  | .withdraw id => x.withdraw id

def trades (x : Exchange ι ω π) : Instruction ι ω π → List (Trade ι π)
  | .submit offer => (x.dealt offer).shares.map offer.trade
  | .withdraw _ => []

def allTrades (x : Exchange ι ω π) (instructions : List (Instruction ι ω π)) :
    List (Trade ι π) :=
  emissions next trades x instructions

theorem allTrades_append (x : Exchange ι ω π)
    (instructions instructions' : List (Instruction ι ω π)) :
    x.allTrades (instructions ++ instructions') =
      x.allTrades instructions ++
        (instructions.foldl next x).allTrades instructions' := by
  induction instructions generalizing x with
  | nil => rfl
  | cons instruction instructions ih =>
      simp only [allTrades, List.cons_append, emissions, List.append_assoc]
      exact congrArg _ (ih (x.next instruction))

theorem allTrades_withdraw (x : Exchange ι ω π) (ids : List ι) :
    x.allTrades (ids.map .withdraw) = [] := by
  induction ids generalizing x with
  | nil => rfl
  | cons id ids ih => exact ih (x.withdraw id)

theorem queue_withdrawAll (x : Exchange ι ω π) (ids : List ι) (way : Way) :
    ((ids.map .withdraw).foldl next x).queue way =
      (x.queue way).filter fun offer => offer.id ∉ ids := by
  induction ids generalizing x with
  | nil => simp
  | cons id ids ih =>
      refine (ih (x.withdraw id)).trans ?_
      simp only [withdraw, List.filter_filter, List.mem_cons, not_or]
      refine List.filter_congr fun offer _ => ?_
      simp [Bool.and_comm]

/-! ## Conservation of lots -/

def withdrawn (x : Exchange ι ω π) : Instruction ι ω π → Nat
  | .submit offer =>
      if (x.dealt offer).blocked then (x.dealt offer).wanted else 0
  | .withdraw id =>
      totalLots ((x.queue .buy).filter fun offer => offer.id = id) +
        totalLots ((x.queue .sell).filter fun offer => offer.id = id)

def allWithdrawn (x : Exchange ι ω π) :
    List (Instruction ι ω π) → Nat
  | [] => 0
  | instruction :: instructions =>
      x.withdrawn instruction + (x.next instruction).allWithdrawn instructions

end Exchange

def Instruction.submitted {ι ω π : Type} : Instruction ι ω π → Nat
  | .submit offer => offer.lots
  | .withdraw _ => 0

namespace Exchange

variable {ι ω π : Type} [LinearOrder π] [DecidableEq ι] [DecidableEq ω]

theorem totalLots_own (x : Exchange ι ω π) (taker : Offer ι ω π) :
    totalLots ((x.submit taker).queue taker.way) +
        x.withdrawn (.submit taker) =
      totalLots (x.queue taker.way) + (x.dealt taker).wanted := by
  refine (congrArg (totalLots · + _) (x.afterSubmit_own taker)).trans ?_
  simp only [Offer.rest, withdrawn]
  by_cases hwanted : (x.dealt taker).wanted = 0
  · simp [hwanted]
  · cases hblocked : (x.dealt taker).blocked with
    | true => simp
    | false =>
        simp only [hwanted, Bool.false_eq_true, or_self, if_false,
          totalLots_enqueue]
        omega

theorem next_conserves (x : Exchange ι ω π)
    (instruction : Instruction ι ω π) :
    (x.next instruction).lots +
        2 * ((x.trades instruction).map Trade.lots).sum +
        x.withdrawn instruction =
      x.lots + instruction.submitted := by
  cases instruction with
  | submit taker =>
      have hown := x.totalLots_own taker
      have hopposite : totalLots ((x.submit taker).queue taker.way.opposite) +
          ((x.dealt taker).shares.map Prod.snd).sum =
            totalLots (x.queue taker.way.opposite) := by
        refine (congrArg (totalLots · + _) (x.afterSubmit_opposite taker)).trans
          (totalLots_leave (x.served taker) fun share hshare => ?_)
        exact (greedy_share _ _ share hshare).1
      have hsum : ((x.dealt taker).shares.map Prod.snd).sum +
          (x.dealt taker).wanted = taker.lots := greedy_sum _ _
      have htraded : ((x.trades (.submit taker)).map Trade.lots).sum =
          ((x.dealt taker).shares.map Prod.snd).sum := by
        unfold trades
        rw [List.map_map]
        rfl
      have hbefore := x.lots_eq taker.way
      have hafter := (x.submit taker).lots_eq taker.way
      rw [htraded]
      change (x.submit taker).lots + _ + _ = _ + taker.lots
      omega
  | withdraw id =>
      have hbids := totalLots_filter (fun offer => decide (offer.id = id))
        (x.queue .buy)
      have hasks := totalLots_filter (fun offer => decide (offer.id = id))
        (x.queue .sell)
      simp only [next, lots, withdraw, trades, withdrawn, List.map_nil,
        List.sum_nil, Instruction.submitted, ne_eq, decide_not] at hbids hasks ⊢
      omega

/-- Submitted lots are traded, wait, or were withdrawn. -/
theorem conserves (x : Exchange ι ω π)
    (instructions : List (Instruction ι ω π)) :
    (instructions.foldl next x).lots +
        2 * ((x.allTrades instructions).map Trade.lots).sum +
        x.allWithdrawn instructions =
      x.lots + (instructions.map Instruction.submitted).sum := by
  induction instructions generalizing x with
  | nil => rfl
  | cons instruction instructions ih =>
      have hfirst := x.next_conserves instruction
      have hrest := ih (x.next instruction)
      simp only [allTrades, emissions, List.map_append, List.sum_append,
        List.foldl_cons, allWithdrawn, List.map_cons,
        List.sum_cons] at hrest ⊢
      omega

end Exchange

end ClobApi.Foundation
