import ClobApi.Engine.Acceptance
import ClobApi.Engine.Stamps
import ClobApi.Guarantees.History
import ClobApi.Guarantees.Recovery
import Mathlib.Order.Bounds.Basic

/-!
# Audit sequence numbers

The `last_update_sequence` of a stored order is the number of the last event
that names it, in the book as after replay, exactly as long as that event is its
acceptance.
-/

namespace ClobApi

open Foundation

def mentions (log : List SequencedEvent) (id : OrderId) : Set Nat :=
  { n | ∃ se ∈ log, se.event.Names id ∧ se.seqId = n }

def Untouched (log : List SequencedEvent) (id : OrderId) : Prop :=
  ∀ se ∈ log, se.event.Names id → ∃ order, se.event = .orderAccepted order

section Legal

variable {strict : Prop} {log : List SequencedEvent} {id : OrderId}

theorem mem_mentions_append {se : SequencedEvent} {n : Nat} :
    n ∈ mentions (log ++ [se]) id ↔
      n ∈ mentions log id ∨ se.event.Names id ∧ se.seqId = n := by
  simp [mentions, or_and_right, exists_or]

theorem untouched_append {se : SequencedEvent} :
    Untouched (log ++ [se]) id ↔ Untouched log id ∧
      (se.event.Names id → ∃ order, se.event = .orderAccepted order) := by
  simp [Untouched, or_imp, forall_and]

theorem LegalLog.mention_le (h : LegalLog strict log) {n : Nat}
    (hn : n ∈ mentions log id) : n ≤ log.length := by
  obtain ⟨se, hse, -, rfl⟩ := hn
  have hmem : se.seqId ∈ log.map SequencedEvent.seqId :=
    List.mem_map_of_mem hse
  rw [h.seqIds, List.mem_range'_1] at hmem
  omega

theorem viewStep_of_not_names {se : SequencedEvent} (h : ¬ se.event.Names id)
    (order : Option Order) : viewStep id order se = order := by
  unfold viewStep
  cases hev : se.event with
  | orderAccepted new =>
      rw [hev] at h
      exact if_neg fun hid => h hid.symm
  | fill trade =>
      rw [hev, Event.Names, not_or] at h
      have htaker : id ≠ trade.takerOrderId := fun hid => h.1 hid.symm
      have hmaker : id ≠ trade.makerOrderId := fun hid => h.2 hid.symm
      simp [htaker, hmaker]
  | orderCancelled cancelled hash reason =>
      rw [hev] at h
      exact if_neg fun hid => h hid.symm
  | _ => rfl

theorem LegalEvent.isSome_of_names {event : Event}
    (h : LegalEvent strict log event) (hnames : event.Names id) (seqId : Nat)
    (timestampMs : UInt64) :
    (viewStep id (orderInLog log id) ⟨seqId, timestampMs, event⟩).isSome =
      true := by
  cases h with
  | orderAccepted =>
      cases hnames
      simp [viewStep]
  | fill htaker hmaker legal =>
      refine viewStep_isSome ?_
      rcases hnames with rfl | rfl
      · simp [htaker]
      · simp [hmaker]
  | orderCancelled hold =>
      cases hnames
      exact viewStep_isSome (by simp [hold])
  | marketPaused => cases hnames
  | marketResumed => cases hnames

theorem LegalLog.unnamed (h : LegalLog strict log)
    (hnone : orderInLog log id = none) :
    mentions log id = ∅ ∧ Untouched log id := by
  induction h with
  | nil => exact ⟨by simp [mentions], by simp [Untouched]⟩
  | @append log event timestampMs init last ih =>
      rw [orderInLog_append] at hnone
      have hnames : ¬ event.Names id := by
        intro hnames
        have hsome := last.isSome_of_names hnames (log.length + 1) timestampMs
        rw [hnone] at hsome
        cases hsome
      rw [viewStep_of_not_names hnames] at hnone
      obtain ⟨hempty, huntouched⟩ := ih hnone
      refine ⟨?_, untouched_append.mpr
        ⟨huntouched, fun hnames' => absurd hnames' hnames⟩⟩
      ext n
      rw [mem_mentions_append, hempty]
      simp [hnames]

/-- What the log says of the last event that names an order. -/
structure LastNamed (log : List SequencedEvent) (id : OrderId)
    (logged : Order) : Prop where
  greatest : IsGreatest (mentions log id) logged.lastUpdateSequence
  open_iff : logged.status = .open ↔ Untouched log id

theorem LegalLog.lastNamed_touch (h : LegalLog strict log) {event : Event}
    {timestampMs : UInt64} {logged : Order} (hnames : event.Names id)
    (hevent : ∀ order, event ≠ .orderAccepted order)
    (hlast : logged.lastUpdateSequence = log.length + 1)
    (hstatus : logged.status ≠ .open) :
    LastNamed (log ++ [⟨log.length + 1, timestampMs, event⟩]) id logged where
  greatest := by
    rw [hlast]
    refine ⟨mem_mentions_append.mpr (.inr ⟨hnames, rfl⟩), fun n hn => ?_⟩
    rcases mem_mentions_append.mp hn with hold | ⟨-, rfl⟩
    · exact Nat.le_succ_of_le (h.mention_le hold)
    · exact Nat.le_refl _
  open_iff := by
    refine ⟨fun hopen => absurd hopen hstatus, fun huntouched => ?_⟩
    obtain ⟨order, horder⟩ := (untouched_append.mp huntouched).2 hnames
    exact absurd horder (hevent order)

theorem LastNamed.append {logged : Order} (h : LastNamed log id logged)
    {se : SequencedEvent} (hnames : ¬ se.event.Names id) :
    LastNamed (log ++ [se]) id logged where
  greatest := by
    have hsame : mentions (log ++ [se]) id = mentions log id := by
      ext n
      rw [mem_mentions_append]
      simp [hnames]
    rw [hsame]
    exact h.greatest
  open_iff := by
    rw [h.open_iff, untouched_append]
    simp [hnames]

/-- Replay leaves an order stamped with the last event that names it. -/
theorem LegalLog.lastNamed (h : LegalLog strict log)
    (hstamped : ∀ order ∈ accepted log,
      order.lastUpdateSequence = order.createdSequence) {logged : Order}
    (hview : orderInLog log id = some logged) : LastNamed log id logged := by
  induction h generalizing logged with
  | nil => cases hview
  | @append log event timestampMs init last ih =>
      have hbefore : ∀ order ∈ accepted log,
          order.lastUpdateSequence = order.createdSequence := by
        intro order hmem
        refine hstamped order ?_
        rw [accepted_append]
        exact List.mem_append_left _ hmem
      rw [orderInLog_append] at hview
      by_cases hnames : event.Names id
      · cases last with
        | @orderAccepted new fresh status unfilled positive created =>
            cases hnames
            have hnew : new = logged := by
              simpa [viewStep] using hview
            subst hnew
            obtain ⟨hempty, huntouched⟩ := init.unnamed fresh
            have hlast : new.lastUpdateSequence = log.length + 1 := by
              rw [hstamped new (by simp [accepted_append, Event.accepts]),
                created]
            refine ⟨⟨?_, fun n hn => ?_⟩, ?_⟩
            · rw [hlast]
              exact mem_mentions_append.mpr (.inr ⟨rfl, rfl⟩)
            · rw [mem_mentions_append, hempty] at hn
              rw [hlast]
              rcases hn with hold | ⟨-, rfl⟩
              · cases hold
              · exact Nat.le_refl _
            · rw [untouched_append]
              exact ⟨fun _ => ⟨huntouched, fun _ => ⟨new, rfl⟩⟩,
                fun _ => status⟩
        | @fill trade taker maker htaker hmaker legal =>
            rw [viewStep_fill legal.distinct] at hview
            rw [if_pos (hnames.imp Eq.symm Eq.symm)] at hview
            obtain ⟨old, -, rfl⟩ := Option.map_eq_some_iff.mp hview
            exact init.lastNamed_touch hnames (by simp) rfl
              (fillOrder_status _ _ _)
        | orderCancelled hold live =>
            rw [viewStep_cancel, if_pos hnames.symm] at hview
            obtain ⟨old, -, rfl⟩ := Option.map_eq_some_iff.mp hview
            exact init.lastNamed_touch hnames (by simp) rfl
              (cancelOrder_status _ _ _)
        | marketPaused => cases hnames
        | marketResumed => cases hnames
      · rw [viewStep_of_not_names hnames] at hview
        exact (ih hbefore hview).append hnames

end Legal

/-! ## Runs -/

theorem Step.run_stampedAcceptances {crypto : Crypto} {ops : List Op}
    {e : Engine} (h : Run (Step crypto) .new ops e) :
    ∀ order ∈ accepted e.log,
      order.lastUpdateSequence = order.createdSequence := by
  intro order hmem
  rw [Step.run_accepted h] at hmem
  obtain ⟨pair, hpair, rfl⟩ := List.mem_map.mp hmem
  obtain ⟨-, -, env, seqId, horder⟩ := acceptances_built hpair
  rw [horder]
  rfl

/--
The stored stamp is the number of the last event that names the order, and if
the order rests, replay of the log stamps it alike.
-/
structure AuditAgrees (e : Engine) (marketId : String) (id : OrderId)
    (live : Order) : Prop where
  greatest : IsGreatest (mentions e.log id) live.lastUpdateSequence
  replayed : live.isClosed = false → ∀ shuffle, ∃ result rebuilt,
    replay shuffle e.log = .ok result ∧
      (bookAt result.books marketId).get id = some rebuilt ∧
      rebuilt.lastUpdateSequence = live.lastUpdateSequence

/--
In a run without forced cancellations and recovery the sequence numbers of a
stored order agree exactly as long as no fill and no cancellation names it.
-/
theorem auditAgrees_iff_untouched {crypto : Crypto} {ops : List Op} {e : Engine}
    (h : Run (BasicStep crypto) .new ops e) {marketId : String} {id : OrderId}
    {live : Order} (hlive : storedOrder e.books marketId id = some live) :
    AuditAgrees e marketId id live ↔ Untouched e.log id := by
  have hinv := (BasicStep.run_inv h).1
  obtain ⟨logged, hlogged, hmatches⟩ := hinv.sync.stored hlive
  have hnamed := hinv.legal.lastNamed
    (Step.run_stampedAcceptances (h.mono fun _ _ _ hstep => hstep.1)) hlogged
  have hstamp := (BasicStep.run_stamped h).stamp hlive hlogged
  rw [← hnamed.open_iff]
  constructor
  · intro hagrees
    by_contra hstatus
    have hsame := hagrees.greatest.unique hnamed.greatest
    exact Nat.ne_of_lt (hstamp.touched hstatus) hsame
  · intro hopen
    have hlast := hstamp.untouched hopen
    refine ⟨hlast ▸ hnamed.greatest, fun hresting shuffle => ?_⟩
    obtain ⟨orders, horders, hreplay⟩ := hinv.legal.replay_ok shuffle
    refine ⟨_, logged, hreplay, ?_, hlast.symm⟩
    refine ((buildBooks_book hinv.legal horders shuffle marketId).2 id
      logged).mpr ⟨hlogged, ?_, hmatches.logged_market⟩
    rw [Order.isClosed_eq_of_core (hmatches.core trivial), hresting]

theorem auditAgrees_iff_untouched_ask :
    AuditAgrees
      (Sample.after [.addMarket Sample.market,
        .processOrder Sample.ask Sample.askEnv])
      "BTC-USD" ⟨"ask"⟩ Sample.askOrder := by
  refine (auditAgrees_iff_untouched Sample.asked_run
    (by decide +kernel)).mpr ?_
  unfold Untouched
  rw [Sample.ask_log]
  intro se hse _
  obtain rfl := List.mem_singleton.mp hse
  exact ⟨_, rfl⟩

/-- The maker of a fill keeps the number of the taker's acceptance. -/
theorem not_auditAgrees_traded :
    ¬ ∀ (crypto : Crypto) (ops : List Op) (e : Engine),
      Run (BasicStep crypto) .new ops e →
        ∀ marketId id live, storedOrder e.books marketId id = some live →
          AuditAgrees e marketId id live := by
  intro h
  have hlive : storedOrder (Sample.after Sample.traded).books "BTC-USD"
      ⟨"ask"⟩ = some { Sample.askOrder with
        filledSizeLots := 4
        status := .partiallyFilled
        lastUpdateSequence := 2 } := by
    decide +kernel
  have hagrees := h _ _ _ Sample.traded_run _ _ _ hlive
  have hmention : 3 ∈ mentions (Sample.after Sample.traded).log ⟨"ask"⟩ := by
    rw [Sample.traded_log.1]
    exact ⟨_, .tail _ (.tail _ (.head _)), .inr rfl, rfl⟩
  exact absurd (hagrees.greatest.2 hmention) (by decide)

end ClobApi
