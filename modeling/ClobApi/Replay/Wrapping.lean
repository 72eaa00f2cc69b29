import ClobApi.Foundation.FirstFault
import ClobApi.Replay.History

/-!
# Replay with sequence numbers of 64 bits

The event loop of `replay` on the numbers as the source types them.  The number
of the last event starts at 0, which also says that there is none yet, and the
number after it wraps.  On numbers below `u64::MAX` the loop is the one on
natural numbers.
-/

namespace ClobApi

open Foundation

namespace Wrapping

structure SequencedEvent where
  seqId : UInt64
  timestampMs : UInt64
  event : Event
  deriving DecidableEq, Repr

structure Progress where
  orders : HashMap OrderId Order
  state : StateStore
  lastSeqId : UInt64

def Progress.start : Progress := ⟨.empty, .new, 0⟩

def step (progress : Progress) (se : SequencedEvent) :
    Except ReplayError Progress :=
  if progress.lastSeqId ≠ 0 ∧ se.seqId ≠ progress.lastSeqId + 1 then
    .error (.seqIdGap (progress.lastSeqId + 1).toNat se.seqId.toNat)
  else do
    let (orders, state) ← Replay.applyEvent progress.orders progress.state
      se.seqId.toNat se.event
    return ⟨orders, state, se.seqId⟩

def walk (events : List SequencedEvent) : Except ReplayError Progress :=
  events.foldlM step .start

def replay (shuffle : Shuffle Order) (events : List SequencedEvent) :
    Except ReplayError ReplayResult := do
  let progress ← walk events
  return {
    books := Replay.buildBooks shuffle progress.orders
    state := progress.state
    lastSeqId := progress.lastSeqId.toNat
    eventCount := events.length }

/-! ## What a step can answer -/

inductive StepAnswer (progress : Progress) (se : SequencedEvent) :
    Except ReplayError Progress → Prop
  | seqIdGap (started : progress.lastSeqId ≠ 0)
      (gap : se.seqId ≠ progress.lastSeqId + 1) :
      StepAnswer progress se
        (.error (.seqIdGap (progress.lastSeqId + 1).toNat se.seqId.toNat))
  | unknownOrder {id : OrderId}
      (follows : progress.lastSeqId = 0 ∨ se.seqId = progress.lastSeqId + 1)
      (named : id ∈ se.event.names)
      (unknown : progress.orders.get? id = none) :
      StepAnswer progress se (.error (.unknownOrder id))
  | ok {orders : HashMap OrderId Order} {state : StateStore}
      (follows : progress.lastSeqId = 0 ∨ se.seqId = progress.lastSeqId + 1)
      (known : ∀ id ∈ se.event.names,
        (progress.orders.get? id).isSome = true)
      (applied : Replay.applyEvent progress.orders progress.state
        se.seqId.toNat se.event = .ok (orders, state)) :
      StepAnswer progress se (.ok ⟨orders, state, se.seqId⟩)

theorem step_answer (progress : Progress) (se : SequencedEvent) :
    StepAnswer progress se (step progress se) := by
  unfold step
  by_cases hgap : progress.lastSeqId ≠ 0 ∧ se.seqId ≠ progress.lastSeqId + 1
  · rw [if_pos hgap]
    exact .seqIdGap hgap.1 hgap.2
  · have hfollows : progress.lastSeqId = 0 ∨
        se.seqId = progress.lastSeqId + 1 := by
      rwa [← not_and_or.trans (or_congr not_not not_not)]
    rw [if_neg hgap]
    obtain ⟨id, hnamed, hunknown, herror⟩ | ⟨hknown, orders, state, hok⟩ :=
      applyEvent_cases progress.orders progress.state se.seqId.toNat se.event
    · rw [herror]
      exact .unknownOrder hfollows hnamed hunknown
    · rw [hok]
      exact .ok hfollows hknown hok

theorem toNat_add_one {n : UInt64} (h : n.toNat + 1 < UInt64.size) :
    (n + 1).toNat = n.toNat + 1 := by
  rw [UInt64.toNat_add]
  exact Nat.mod_eq_of_lt h

theorem add_one_of_max {n : UInt64} (h : n.toNat + 1 = UInt64.size) :
    n + 1 = 0 := by
  rw [← UInt64.toNat_inj, UInt64.toNat_add, UInt64.toNat_one, h]
  rfl

/-! ## The loop on natural numbers -/

def SequencedEvent.toNat (se : SequencedEvent) : ClobApi.SequencedEvent :=
  ⟨se.seqId.toNat, se.timestampMs, se.event⟩

def Progress.toNat (progress : Progress) : Replay.Progress :=
  ⟨progress.orders, progress.state, progress.lastSeqId.toNat⟩

theorem step_toNat {progress : Progress}
    (hlast : progress.lastSeqId.toNat + 1 < UInt64.size) (se : SequencedEvent) :
    Replay.step progress.toNat se.toNat =
      (step progress se).map Progress.toNat := by
  have hnext := toNat_add_one hlast
  have hgap : progress.lastSeqId ≠ 0 ∧ se.seqId ≠ progress.lastSeqId + 1 ↔
      progress.lastSeqId.toNat ≠ 0 ∧
        se.seqId.toNat ≠ progress.lastSeqId.toNat + 1 := by
    rw [Ne, Ne, ← UInt64.toNat_inj, ← UInt64.toNat_inj, hnext]
    rfl
  unfold step Replay.step
  by_cases h : progress.lastSeqId ≠ 0 ∧ se.seqId ≠ progress.lastSeqId + 1
  · rw [if_pos h, if_pos (by exact hgap.mp h), hnext]
    rfl
  · rw [if_neg h, if_neg (by exact fun hnat => h (hgap.mpr hnat))]
    change (Replay.applyEvent progress.orders progress.state se.seqId.toNat
      se.event >>= _) = Except.map _ (Replay.applyEvent progress.orders
        progress.state se.seqId.toNat se.event >>= _)
    cases Replay.applyEvent progress.orders progress.state se.seqId.toNat
      se.event <;> rfl

theorem foldlM_step_toNat {events : List SequencedEvent} {progress : Progress}
    (hlast : progress.lastSeqId.toNat + 1 < UInt64.size)
    (hevents : ∀ se ∈ events, se.seqId.toNat + 1 < UInt64.size) :
    (events.map SequencedEvent.toNat).foldlM Replay.step progress.toNat =
      (events.foldlM step progress).map Progress.toNat := by
  induction events generalizing progress with
  | nil => rfl
  | cons se events ih =>
      rw [List.map_cons, List.foldlM_cons, List.foldlM_cons, step_toNat hlast]
      have hanswer := step_answer progress se
      cases hstep : step progress se with
      | error error => rfl
      | ok next =>
          rw [hstep] at hanswer
          cases hanswer with
          | ok =>
              exact ih (hevents se (.head _)) fun se' hse' =>
                hevents se' (.tail _ hse')

theorem replay_toNat (shuffle : Shuffle Order) {events : List SequencedEvent}
    (h : ∀ se ∈ events, se.seqId.toNat + 1 < UInt64.size) :
    ClobApi.replay shuffle (events.map SequencedEvent.toNat) =
      replay shuffle events := by
  have hwalk : Replay.walk (events.map SequencedEvent.toNat) =
      (walk events).map Progress.toNat :=
    foldlM_step_toNat (show Progress.start.lastSeqId.toNat + 1 < _ by decide) h
  unfold ClobApi.replay replay
  rw [hwalk, List.length_map]
  cases walk events <;> rfl

end Wrapping

end ClobApi
