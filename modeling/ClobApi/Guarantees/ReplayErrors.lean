import ClobApi.Replay.LegalLog
import ClobApi.Replay.Wrapping

/-!
# Which logs replay accepts

Replay is to report the first event that does not follow its predecessor in
number or that names an order the log has not accepted.  The number 0 of a last
event is taken for no event at all, and after `u64::MAX` the numbers begin
again, so two kinds of gaps go unnoticed or are reported with another number.
-/

namespace ClobApi

open Foundation

namespace Wrapping

/-! ## Faults -/

def Unknown (before : List SequencedEvent) (id : OrderId) : Prop :=
  ∀ order ∈ accepted (before.map SequencedEvent.toNat), order.orderId ≠ id

def NamesKnown (before : List SequencedEvent) (se : SequencedEvent) : Prop :=
  ∀ id ∈ se.event.names, ¬ Unknown before id

/-- What is wrong with an event behind these, and the error that says so. -/
inductive Fault (before : List SequencedEvent) (se : SequencedEvent) :
    ReplayError → Prop
  | seqIdGap {last : SequencedEvent} (predecessor : before.getLast? = some last)
      (gap : se.seqId.toNat ≠ last.seqId.toNat + 1) :
      Fault before se (.seqIdGap (last.seqId.toNat + 1) se.seqId.toNat)
  | unknownOrder {id : OrderId} (named : id ∈ se.event.names)
      (unknown : Unknown before id) : Fault before se (.unknownOrder id)

/--
The first faulty event is reported with its fault, and exactly the logs without
one are replayed, up to their last number.
-/
structure ReplaysWellFormed (events : List SequencedEvent)
    (answer : Except ReplayError ReplayResult) : Prop where
  reports : ReportsFirst Fault events answer
  accepts : (∃ result, answer = .ok result ∧
      ∀ last, events.getLast? = some last →
        result.lastSeqId = last.seqId.toNat) ↔
    Faultless Fault events

/-- The gaps that the loop does not see, or reports with another number. -/
def Missed (before : List SequencedEvent) (se : SequencedEvent) : Prop :=
  ∃ last, before.getLast? = some last ∧
    (last.seqId = 0 ∧ se.seqId ≠ 1 ∧ NamesKnown before se ∨
      last.seqId.toNat + 1 = UInt64.size ∧
        (se.seqId ≠ 0 ∨ NamesKnown before se))

section Steps

variable {before : List SequencedEvent} {se : SequencedEvent}
  {progress : Progress}

theorem Missed.exists_fault (h : Missed before se) :
    ∃ error, Fault before se error := by
  obtain ⟨last, hlast, hgap⟩ := h
  refine ⟨_, .seqIdGap hlast ?_⟩
  obtain ⟨hzero, hne, -⟩ | ⟨hmax, -⟩ := hgap
  · rw [hzero]
    exact fun hone => hne (UInt64.toNat_inj.mp hone)
  · rw [hmax]
    exact Nat.ne_of_lt se.seqId.toNat_lt

theorem unknown_iff {id : OrderId} : Unknown before id ↔
    orderInLog (before.map SequencedEvent.toNat) id = none := by
  refine ⟨orderInLog_eq_none, fun hnone order hmem hid => ?_⟩
  have hsome := orderInLog_isSome hmem
  rw [hid, hnone] at hsome
  cases hsome

/-! ## The state of the loop -/

structure Progress.After (progress : Progress)
    (before : List SequencedEvent) : Prop where
  last : progress.lastSeqId =
    (before.getLast?.map SequencedEvent.seqId).getD 0
  orders : ∀ id, progress.orders.get? id =
    orderInLog (before.map SequencedEvent.toNat) id

theorem Progress.After.start : Progress.start.After [] := ⟨rfl, fun _ => rfl⟩

theorem Progress.After.step {orders : HashMap OrderId Order}
    {state : StateStore} (h : progress.After before)
    (happlied : Replay.applyEvent progress.orders progress.state se.seqId.toNat
      se.event = .ok (orders, state)) :
    Progress.After ⟨orders, state, se.seqId⟩ (before ++ [se]) where
  last := by simp
  orders := by
    have hviews : ∀ id, orders.get? id =
        viewStep id (progress.orders.get? id) se.toNat :=
      (applyEvent_ok (show Replay.applyEvent progress.orders progress.state
        se.toNat.seqId se.toNat.event = _ from happlied)).1
    intro id
    rw [List.map_append, List.map_singleton, orderInLog_append, hviews,
      h.orders]

theorem Progress.After.last_eq (h : progress.After before)
    {last : SequencedEvent} (hlast : before.getLast? = some last) :
    progress.lastSeqId = last.seqId := by
  rw [h.last, hlast]
  rfl

theorem Progress.After.started (h : progress.After before)
    (hstarted : progress.lastSeqId ≠ 0) :
    ∃ last, before.getLast? = some last ∧ progress.lastSeqId = last.seqId := by
  have hlast := h.last
  cases hbefore : before.getLast? with
  | none =>
      rw [hbefore] at hlast
      exact absurd hlast hstarted
  | some last =>
      rw [hbefore] at hlast
      exact ⟨last, rfl, hlast⟩

theorem Progress.After.unknown (h : progress.After before) {id : OrderId} :
    progress.orders.get? id = none ↔ Unknown before id := by
  rw [h.orders, unknown_iff]

theorem Progress.After.names_known (h : progress.After before)
    (hknown : ∀ id ∈ se.event.names,
      (progress.orders.get? id).isSome = true) : NamesKnown before se := by
  intro id hnamed hunknown
  have hsome := hknown id hnamed
  rw [h.unknown.mpr hunknown] at hsome
  cases hsome

/-! ## One step -/

theorem add_one_lt_or_max (n : UInt64) :
    n.toNat + 1 < UInt64.size ∨ n.toNat + 1 = UInt64.size :=
  Nat.lt_or_eq_of_le n.toNat_lt

theorem step_faultless (h : progress.After before)
    (hfaultless : ∀ error, ¬ Fault before se error) :
    ∃ next, step progress se = .ok next ∧ next.After (before ++ [se]) := by
  have hanswer := step_answer progress se
  generalize step progress se = answer at hanswer ⊢
  cases hanswer with
  | seqIdGap started gap =>
      obtain ⟨last, hlast, heq⟩ := h.started started
      refine absurd (.seqIdGap hlast fun hnext => gap ?_) (hfaultless _)
      have hlt : last.seqId.toNat + 1 < UInt64.size :=
        hnext ▸ se.seqId.toNat_lt
      rw [heq, ← UInt64.toNat_inj, toNat_add_one hlt, hnext]
  | unknownOrder follows named unknown =>
      exact absurd (.unknownOrder named (h.unknown.mp unknown)) (hfaultless _)
  | ok follows known applied => exact ⟨_, rfl, h.step applied⟩

theorem step_reports (h : progress.After before)
    (hfaulty : ∃ error, Fault before se error) (hseen : ¬ Missed before se) :
    ∃ error, step progress se = .error error ∧ Fault before se error := by
  have hanswer := step_answer progress se
  generalize step progress se = answer at hanswer ⊢
  cases hanswer with
  | seqIdGap started gap =>
      obtain ⟨last, hlast, heq⟩ := h.started started
      rw [heq] at gap ⊢
      obtain hlt | hmax := add_one_lt_or_max last.seqId
      · rw [toNat_add_one hlt]
        refine ⟨_, rfl, .seqIdGap hlast fun hnext => gap ?_⟩
        rw [← UInt64.toNat_inj, toNat_add_one hlt, hnext]
      · rw [add_one_of_max hmax] at gap
        exact absurd ⟨last, hlast, .inr ⟨hmax, .inl gap⟩⟩ hseen
  | unknownOrder follows named unknown =>
      exact ⟨_, rfl, .unknownOrder named (h.unknown.mp unknown)⟩
  | ok follows known applied =>
      have hnames := h.names_known known
      obtain ⟨error, hfault⟩ := hfaulty
      cases hfault with
      | unknownOrder named unknown => exact absurd unknown (hnames _ named)
      | @seqIdGap last predecessor gap =>
          refine absurd ⟨last, predecessor, ?_⟩ hseen
          rw [h.last_eq predecessor] at follows
          obtain hzero | hnext := follows
          · refine .inl ⟨hzero, fun hone => gap ?_, hnames⟩
            rw [hzero, hone]
            rfl
          · obtain hlt | hmax := add_one_lt_or_max last.seqId
            · rw [hnext, toNat_add_one hlt] at gap
              exact absurd rfl gap
            · exact .inr ⟨hmax, .inr hnames⟩

theorem step_expected {expected got : Nat}
    (h : step progress se = .error (.seqIdGap expected got)) :
    expected ≠ 1 ∧ expected < UInt64.size := by
  have hanswer := step_answer progress se
  rw [h] at hanswer
  cases hanswer with
  | seqIdGap started gap =>
      refine ⟨fun hone => started ?_, UInt64.toNat_lt _⟩
      have hnext : progress.lastSeqId + 1 = 0 + 1 := UInt64.toNat_inj.mp hone
      exact (UInt64.add_left_inj 1).mp hnext

/-- Behind `u64::MAX` any other number than 0 is reported as a gap. -/
theorem step_behind_max (h : progress.After before) {last : SequencedEvent}
    (hlast : before.getLast? = some last)
    (hmax : last.seqId.toNat + 1 = UInt64.size) (hne : se.seqId ≠ 0) :
    step progress se = .error (.seqIdGap 0 se.seqId.toNat) := by
  have heq := h.last_eq hlast
  have hstarted : progress.lastSeqId ≠ 0 := by
    rw [heq]
    rintro hzero
    rw [hzero] at hmax
    cases hmax
  unfold step
  rw [if_pos ⟨hstarted, by rwa [heq, add_one_of_max hmax]⟩, heq,
    add_one_of_max hmax]
  rfl

/-- The fault of a missed gap is not reported, at this event or later. -/
theorem foldlM_missed (h : progress.After before) (hmissed : Missed before se)
    {after : List SequencedEvent} {error : ReplayError}
    (herror : (se :: after).foldlM step progress = .error error) :
    ¬ Fault before se error := by
  obtain ⟨last, hlast, hgap⟩ := hmissed
  intro hfault
  cases hfault with
  | @seqIdGap last' predecessor gap =>
      obtain rfl := Option.some.inj (hlast.symm.trans predecessor)
      obtain ⟨s, x, -, hstep⟩ := exists_step_error herror
      obtain ⟨hne, hlt⟩ := step_expected hstep
      obtain ⟨hzero, -⟩ | ⟨hmax, -⟩ := hgap
      · rw [hzero] at hne
        exact hne rfl
      · exact absurd hmax (Nat.ne_of_lt hlt)
  | unknownOrder named unknown =>
      obtain ⟨-, -, hknown⟩ | ⟨-, hknown⟩ | ⟨hmax, hne⟩ :
          (last.seqId = 0 ∧ se.seqId ≠ 1 ∧ NamesKnown before se) ∨
          (last.seqId.toNat + 1 = UInt64.size ∧ NamesKnown before se) ∨
          last.seqId.toNat + 1 = UInt64.size ∧ se.seqId ≠ 0 := by
        tauto
      · exact hknown _ named unknown
      · exact hknown _ named unknown
      · rw [List.foldlM_cons, step_behind_max h hlast hmax hne] at herror
        cases herror

end Steps

/-! ## The whole log -/

theorem replay_eq_map (shuffle : Shuffle Order) (events : List SequencedEvent) :
    replay shuffle events = (walk events).map fun progress =>
      ⟨Replay.buildBooks shuffle progress.orders, progress.state,
        progress.lastSeqId.toNat, events.length⟩ := by
  unfold replay
  cases walk events <;> rfl

theorem walk_faultless {events : List SequencedEvent}
    (h : Faultless Fault events) :
    ∃ progress, walk events = .ok progress ∧ progress.After events :=
  h.foldlM (P := fun before progress => Progress.After progress before)
    .start step_faultless

/--
Replay reports the first fault and accepts exactly the logs without one, unless
the first faulty event is a missed gap.
-/
theorem replay_wellFormed_iff (shuffle : Shuffle Order)
    (events : List SequencedEvent) :
    ReplaysWellFormed events (replay shuffle events) ↔
      ∀ before se after, events = before ++ se :: after →
        Faultless Fault before → ¬ Missed before se := by
  rw [replay_eq_map]
  constructor
  · rintro h before se after rfl hfaultless hmissed
    obtain ⟨progress, hwalk, hafter⟩ := walk_faultless hfaultless
    obtain ⟨error, hanswer, hfault⟩ :=
      h.reports before se after rfl hfaultless hmissed.exists_fault
    cases hall : walk (before ++ se :: after) with
    | ok result =>
        rw [hall] at hanswer
        cases hanswer
    | error error' =>
        rw [hall] at hanswer
        obtain rfl : error' = error := Except.error.inj hanswer
        unfold walk at hall hwalk
        rw [foldlM_split hwalk] at hall
        exact foldlM_missed hafter hmissed hall hfault
  · intro hseen
    have hreports : ReportsFirst Fault events (walk events) := by
      rintro before se after rfl hfaultless hfaulty
      obtain ⟨progress, hwalk, hafter⟩ := walk_faultless hfaultless
      obtain ⟨error, hstep, hfault⟩ := step_reports hafter hfaulty
        (hseen before se after rfl hfaultless)
      refine ⟨error, ?_, hfault⟩
      unfold walk at hwalk ⊢
      rw [foldlM_split hwalk, hstep]
      rfl
    constructor
    · intro before se after hsplit hfaultless hfaulty
      obtain ⟨error, hwalk, hfault⟩ :=
        hreports before se after hsplit hfaultless hfaulty
      exact ⟨error, by rw [hwalk]; rfl, hfault⟩
    · constructor
      · rintro ⟨result, hok, -⟩
        cases hwalk : walk events with
        | error error =>
            rw [hwalk] at hok
            cases hok
        | ok progress =>
            rw [hwalk] at hreports
            exact hreports.faultless
      · intro hfaultless
        obtain ⟨progress, hwalk, hafter⟩ := walk_faultless hfaultless
        refine ⟨_, by rw [hwalk]; rfl, fun last hlast => ?_⟩
        exact congrArg UInt64.toNat (hafter.last_eq hlast)

/-! ## A gap behind the number 0 -/

namespace Sample

def rejected : Event := .orderRejected "cid-1" "trader-a" "ZeroPrice"

def gapBehindZero : List SequencedEvent :=
  [⟨0, 1000, rejected⟩, ⟨5, 2000, rejected⟩]

theorem gapBehindZero_replayed :
    ¬ ReplaysWellFormed gapBehindZero (replay .id gapBehindZero) := by
  intro h
  have hfirst : Faultless Fault ([] ++ [⟨0, 1000, rejected⟩]) := by
    refine faultless_append.mpr ⟨faultless_nil, fun error hfault => ?_⟩
    cases hfault with
    | seqIdGap predecessor gap => cases predecessor
    | unknownOrder named unknown => cases named
  obtain ⟨error, hanswer, -⟩ := h.reports [⟨0, 1000, rejected⟩]
    ⟨5, 2000, rejected⟩ [] rfl hfirst ⟨_, .seqIdGap rfl (by decide)⟩
  have hok : (replay .id gapBehindZero).map ReplayResult.lastSeqId = .ok 5 :=
    rfl
  rw [hanswer] at hok
  cases hok

end Sample

end Wrapping

end ClobApi
