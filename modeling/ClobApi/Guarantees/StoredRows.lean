import ClobApi.Foundation.FirstFault
import ClobApi.Guarantees.Audit
import ClobApi.Guarantees.Handover
import ClobApi.Guarantees.Persistence
import ClobApi.Guarantees.TradeHistory
import ClobApi.PgRows
import ClobApi.Startup

/-!
# Starting from the rows in Postgres

The rows hold the events that the handlers have stored, and nothing is lost on
the way through JSON and signed numbers.  The next start restores them exactly
if they have no gap and name no order that none of them accepts.
-/

namespace ClobApi

open Foundation

/-! ## Which events replay -/

def Gapless (events : List SequencedEvent) : Prop :=
  events.IsChain fun a b => b.seqId = a.seqId + 1

def NamesUnknown (before : List SequencedEvent) (se : SequencedEvent)
    (id : OrderId) : Prop :=
  id ∈ se.event.names ∧ ∀ order ∈ accepted before, order.orderId ≠ id

/-- Fills and cancellations name orders that earlier events accept. -/
def SelfContained (events : List SequencedEvent) : Prop :=
  Faultless NamesUnknown events

theorem gapless_concat {events : List SequencedEvent} {se : SequencedEvent} :
    Gapless (events ++ [se]) ↔ Gapless events ∧
      ∀ last, events.getLast? = some last → se.seqId = last.seqId + 1 := by
  simp [Gapless, List.isChain_append]

theorem not_namesUnknown_iff {before : List SequencedEvent}
    {se : SequencedEvent} : (∀ id, ¬ NamesUnknown before se id) ↔
      ∀ id ∈ se.event.names, (orderInLog before id).isSome = true := by
  refine forall_congr' fun id => ?_
  unfold NamesUnknown
  rw [not_and]
  refine imp_congr_right fun _ => ?_
  constructor
  · intro hknown
    by_contra hnone
    refine hknown fun order horder hid => hnone ?_
    rw [← hid]
    exact orderInLog_isSome horder
  · intro hsome hunknown
    rw [orderInLog_eq_none hunknown] at hsome
    cases hsome

theorem step_ok_iff {progress : Replay.Progress} {se : SequencedEvent} :
    (∃ next, Replay.step progress se = .ok next) ↔
      (progress.lastSeqId ≠ 0 → se.seqId = progress.lastSeqId + 1) ∧
        ∀ id ∈ se.event.names, (progress.orders.get? id).isSome = true := by
  unfold Replay.step
  split
  · next hgap =>
      refine iff_of_false (by simp) fun h => ?_
      exact hgap.2 (h.1 hgap.1)
  · next hnext =>
      rw [not_and, not_not] at hnext
      obtain ⟨id, hnamed, hunknown, herror⟩ |
          ⟨hknown, orders, state, hok⟩ :=
        applyEvent_cases progress.orders progress.state se.seqId se.event
      · refine iff_of_false ?_ fun h => ?_
        · rw [herror]
          rintro ⟨next, ⟨⟩⟩
        · have hsome := h.2 id hnamed
          rw [hunknown] at hsome
          cases hsome
      · refine iff_of_true ?_ ⟨hnext, hknown⟩
        rw [hok]
        exact ⟨_, rfl⟩

theorem walk_lastSeqId {events : List SequencedEvent}
    {progress : Replay.Progress} (h : Replay.walk events = .ok progress) :
    progress.lastSeqId = (events.getLast?.map SequencedEvent.seqId).getD 0 := by
  rcases List.eq_nil_or_concat events with rfl | ⟨events, se, rfl⟩
  · obtain rfl := Except.ok.inj h
    rfl
  · rw [List.concat_eq_append, walk_append] at h
    cases hwalk : Replay.walk events with
    | error error => simp [hwalk, Except.bind] at h
    | ok before =>
        rw [hwalk] at h
        rw [(step_views (walk_views hwalk) h).2]
        simp

theorem walk_ok_iff {events : List SequencedEvent}
    (hpositive : ∀ se ∈ events, se.seqId ≠ 0) :
    (∃ progress, Replay.walk events = .ok progress) ↔
      Gapless events ∧ SelfContained events := by
  induction events using List.reverseRecOn with
  | nil => exact iff_of_true ⟨_, rfl⟩ ⟨.nil, faultless_nil⟩
  | append_singleton events se ih =>
      have hbefore : ∀ se ∈ events, se.seqId ≠ 0 :=
        fun se hse => hpositive se (List.mem_append_left _ hse)
      rw [gapless_concat, SelfContained, faultless_append,
        not_namesUnknown_iff, walk_append, and_and_and_comm]
      cases hwalk : Replay.walk events with
      | error error =>
          refine iff_of_false (by rintro ⟨progress, ⟨⟩⟩) fun h => ?_
          obtain ⟨progress, hok⟩ := (ih hbefore).mpr h.1
          rw [hwalk] at hok
          cases hok
      | ok progress =>
          have hinit := (ih hbefore).mp ⟨progress, hwalk⟩
          have hviews := walk_views hwalk
          change (∃ next, Replay.step progress se = .ok next) ↔ _
          rw [step_ok_iff, walk_lastSeqId hwalk]
          simp only [hviews.orders]
          refine Iff.trans (and_congr_left' ?_) (and_iff_right hinit).symm
          cases hlast : events.getLast? with
          | none => simp
          | some last =>
              have hne := hbefore last (List.mem_of_getLast? hlast)
              simp [hne]

theorem restart_ok_iff (shuffle : Shuffle Order) {events : List SequencedEvent}
    (hpositive : ∀ se ∈ events, se.seqId ≠ 0) :
    (restart shuffle events).2 = .ok () ↔
      Gapless events ∧ SelfContained events := by
  rw [← walk_ok_iff hpositive]
  unfold restart Engine.restoreFromEvents replay
  split
  · next hempty =>
      obtain rfl := List.isEmpty_iff.mp hempty
      exact iff_of_true rfl ⟨_, rfl⟩
  · cases hwalk : Replay.walk events with
    | error error =>
        refine iff_of_false ?_ ?_
        · rintro ⟨⟩
        · rintro ⟨progress, ⟨⟩⟩
    | ok progress => exact iff_of_true rfl ⟨progress, rfl⟩

/-! ## The server and its rows -/

/-- The server, with the table as Postgres holds it. -/
structure Deployment where
  server : Server
  rows : List Row

namespace Deployment

def start (e : Engine) : Deployment := ⟨.start e, e.log.map .ofEvent⟩

def rowsAfter (d : Deployment) (i : Nat) (action : Action) : List Row :=
  match action, d.server.handlers i with
  | .proceed, .persisting _ (.copied events) =>
      PgRows.appendEvents d.rows events
  | _, _ => d.rows

def step (crypto : Crypto) (d : Deployment) (i : Nat) (action : Action) :
    Option Deployment :=
  (d.server.step crypto i action).map fun server =>
    ⟨server, d.rowsAfter i action⟩

def Step (crypto : Crypto) (d : Deployment) (label : Nat × Action)
    (d' : Deployment) : Prop :=
  d.server.Admits label.1 ∧ d.step crypto label.1 label.2 = some d'

end Deployment

/-! ## What is stored -/

theorem PgStore.mem_appendEvents {table events : List SequencedEvent}
    {se : SequencedEvent} (h : se ∈ PgStore.appendEvents table events) :
    se ∈ table ∨ se ∈ events := by
  induction events generalizing table with
  | nil => exact .inl h
  | cons event events ih =>
      rcases ih h with hold | hrest
      · unfold PgStore.insertEvent at hold
        split at hold
        · exact .inl hold
        · rcases List.mem_append.mp hold with hold | hnew
          · exact .inl hold
          · exact .inr (List.mem_singleton.mp hnew ▸ List.mem_cons_self)
      · exact .inr (List.mem_cons_of_mem _ hrest)

theorem PgStore.appendEvents_nodup {table : List SequencedEvent}
    (events : List SequencedEvent)
    (h : (table.map SequencedEvent.seqId).Nodup) :
    ((PgStore.appendEvents table events).map SequencedEvent.seqId).Nodup := by
  induction events generalizing table with
  | nil => exact h
  | cons event events ih =>
      refine ih ?_
      by_cases hstores : PgStore.Stores table event.seqId
      · rwa [PgStore.insertEvent_of_stores hstores]
      · rw [PgStore.insertEvent_of_not_stores hstores, List.map_append,
          List.map_singleton, ← List.concat_eq_append]
        refine (List.nodup_concat _ _).mpr ⟨fun hmem => ?_, h⟩
        obtain ⟨row, hrow, hseq⟩ := List.mem_map.mp hmem
        exact hstores ⟨row, hrow, hseq⟩

namespace Server

variable {crypto : Crypto} {s s' : Server} {i : Nat} {action : Action}

/-- What is stored, or copied to be stored, is in the log. -/
structure Batched (s : Server) : Prop where
  stored : ∀ se ∈ s.stored, se ∈ s.engine.log
  distinct : (s.stored.map SequencedEvent.seqId).Nodup
  copied : ∀ i seqBefore events,
    s.handlers i = .persisting seqBefore (.copied events) →
      ∀ se ∈ events, se ∈ s.engine.log

theorem Move.stored (h : s.Move crypto i action s') :
    (∃ seqBefore events, action = .proceed ∧
        s.handlers i = .persisting seqBefore (.copied events) ∧
        s'.stored = PgStore.appendEvents s.stored events) ∨
      s'.stored = s.stored ∧ ∀ seqBefore events, action = .proceed →
        s.handlers i ≠ .persisting seqBefore (.copied events) := by
  cases h with
  | @commit seqBefore events phase =>
      exact .inl ⟨seqBefore, events, rfl, phase, rfl⟩
  | @call request phase =>
      exact .inr ⟨callEngine_stored _ _ _ _, by simp [phase]⟩
  | lock request phase | read phase => exact .inr ⟨rfl, nofun⟩
  | rollback phase => exact .inr ⟨rfl, nofun⟩
  | unlock phase | tryPublish phase | skipPublish phase | collect phase
  | send phase | published phase | tryPersist phase | skipPersist phase
  | copy phase => exact .inr ⟨rfl, by simp [phase]⟩

theorem Batched.move (h : s.Batched) (hmove : s.Move crypto i action s')
    (hadmits : s.Admits i) : s'.Batched := by
  have hlog := (hmove.log hadmits).subset
  have htable : (∀ se ∈ s'.stored, se ∈ s'.engine.log) ∧
      (s'.stored.map SequencedEvent.seqId).Nodup := by
    obtain ⟨seqBefore, events, -, hphase, hstored⟩ | ⟨hstored, -⟩ :=
      hmove.stored
    · rw [hstored]
      refine ⟨fun se hse => hlog ?_, PgStore.appendEvents_nodup _ h.distinct⟩
      rcases PgStore.mem_appendEvents hse with hold | hnew
      · exact h.stored se hold
      · exact h.copied i seqBefore events hphase se hnew
    · rw [hstored]
      exact ⟨fun se hse => hlog (h.stored se hse), h.distinct⟩
  refine ⟨htable.1, htable.2, fun j seqBefore events hphase se hse => ?_⟩
  by_cases hj : j = i
  · subst hj
    cases hmove with
    | call phase =>
        simp only [callEngine] at hphase
        split at hphase <;> simp [release, Server.move] at hphase
    | @copy before phase =>
        simp only [release, Server.move, Function.update_self,
          Phase.persisting.injEq, Stage.copied.injEq] at hphase
        obtain ⟨-, rfl⟩ := hphase
        exact (List.mem_filter.mp hse).1
    | _ => simp [acquire, release, Server.move] at hphase
  · rw [hmove.handlers_of_ne hj] at hphase
    exact hlog (h.copied j seqBefore events hphase se hse)

theorem Step.run_batched {ops : List Op} {e : Engine}
    {labels : List (Nat × Action)}
    (hstart : Run (ClobApi.Step crypto) .new ops e)
    (h : Run (Server.Step crypto) (start e) labels s) : s.Batched := by
  have hinit : (start e).Batched := by
    refine ⟨fun _ hse => hse, ?_, nofun⟩
    change (e.log.map SequencedEvent.seqId).Nodup
    rw [(ClobApi.Step.run_inv hstart).legal.seqIds]
    exact List.nodup_range'
  refine h.invariant hinit fun s label s' hs hstep => ?_
  exact hs.move (step_move hstep.2) hstep.1

theorem Logged.eq_of_seqId (h : s.Logged) {a b : SequencedEvent}
    (ha : a ∈ s.engine.log) (hb : b ∈ s.engine.log)
    (hseq : a.seqId = b.seqId) : a = b := by
  have hnodup : (s.engine.log.map SequencedEvent.seqId).Nodup := by
    rw [h.legal.seqIds]
    exact List.nodup_range'
  exact List.inj_on_of_nodup_map hnodup ha hb hseq

theorem Batched.loadAllEvents (h : s.Batched) (hlog : s.Logged) :
    PgStore.loadAllEvents s.stored =
      s.engine.log.filter fun se => se ∈ s.stored := by
  refine eq_of_pairwise_lt_of_mem_iff SequencedEvent.seqId
    (pairwise_lt_insertionSort _ _ (List.pairwise_map.mp h.distinct))
    (hlog.numbered.pairwise.filter _) fun se => ?_
  rw [PgStore.loadAllEvents, List.mem_insertionSort, List.mem_filter,
    decide_eq_true_eq]
  exact ⟨fun hse => ⟨h.stored se hse, hse⟩, And.right⟩

end Server

/-! ## The rows in a run -/

namespace Deployment

variable {crypto : Crypto} {ops : List Op} {e : Engine} {d d' : Deployment}
  {labels : List (Nat × Action)}

theorem Step.server {label : Nat × Action} (h : Step crypto d label d') :
    Server.Step crypto d.server label d'.server ∧
      d'.rows = d.rowsAfter label.1 label.2 := by
  obtain ⟨hadmits, hstep⟩ := h
  obtain ⟨server, hserver, rfl⟩ := Option.map_eq_some_iff.mp hstep
  exact ⟨⟨hadmits, hserver⟩, rfl⟩

theorem Step.run_server (h : Run (Step crypto) (start e) labels d) :
    Run (Server.Step crypto) (.start e) labels d.server := by
  induction h with
  | start => exact .start
  | next _ hstep ih => exact ih.next hstep.server.1

theorem Step.exists_run {s : Server}
    (h : Run (Server.Step crypto) (.start e) labels s) :
    ∃ d, Run (Step crypto) (start e) labels d ∧ d.server = s := by
  induction h with
  | start => exact ⟨_, .start, rfl⟩
  | @next labels s label s' _ hstep ih =>
      obtain ⟨d, hrun, rfl⟩ := ih
      have hnext : d.step crypto label.1 label.2 =
          some ⟨s', d.rowsAfter label.1 label.2⟩ := by
        rw [step, hstep.2, Option.map_some]
      exact ⟨_, hrun.next ⟨hstep.1, hnext⟩, rfl⟩

/-- As long as the numbers are small the rows are those of the stored events. -/
theorem Step.run_rows (hstart : Run (ClobApi.Step crypto) .new ops e)
    (h : Run (Step crypto) (start e) labels d)
    (hsmall : d.server.engine.log.length < 2 ^ 63) :
    d.rows = d.server.stored.map .ofEvent := by
  induction h with
  | start => rfl
  | @next labels d label d' hrun hstep ih =>
      obtain ⟨⟨hadmits, hserver⟩, hrows⟩ := hstep.server
      have hmove := Server.step_move hserver
      have hbefore := (hmove.log hadmits).length_le.trans_lt hsmall
      have hbatched := Server.Step.run_batched hstart (run_server hrun)
      have hlogged := Server.Step.run_logged hstart (run_server hrun)
      have hnumber : ∀ se ∈ d.server.engine.log, se.seqId < 2 ^ 63 := by
        intro se hse
        have htail := (hlogged.numbered.mem_tail 0 se.seqId).mp ⟨se, hse, rfl⟩
        omega
      rw [hrows]
      obtain ⟨seqBefore, events, haction, hphase, hstored⟩ | ⟨hstored, hno⟩ :=
        hmove.stored
      · have hcommit : d.rowsAfter label.1 label.2 =
            PgRows.appendEvents d.rows events := by
          simp only [rowsAfter, haction, hphase]
        rw [hcommit, hstored, ih hbefore]
        exact PgRows.appendEvents_map
          (fun se hse => hnumber se (hbatched.stored se hse))
          fun se hse =>
            hnumber se (hbatched.copied _ seqBefore events hphase se hse)
      · have hsame : d.rowsAfter label.1 label.2 = d.rows := by
          unfold rowsAfter
          split
          · next seqBefore events haction hphase =>
              exact absurd hphase (hno seqBefore events haction)
          · rfl
        rw [hsame, hstored, ih hbefore]

end Deployment

theorem LegalLog.seqId_le {strict : Prop} {log : List SequencedEvent}
    (h : LegalLog strict log) {se : SequencedEvent} (hse : se ∈ log) :
    se.seqId ≤ log.length := by
  have hmem : se.seqId ∈ log.map SequencedEvent.seqId :=
    List.mem_map_of_mem hse
  rw [h.seqIds, List.mem_range'_1] at hmem
  omega

/-- Until the numbers wrap, the events of a run can be written as JSON. -/
theorem Step.run_eventsFit {crypto : Crypto} {ops : List Op} {e : Engine}
    (h : Run (Step crypto) .new ops e) (hsmall : e.log.length < 2 ^ 64) :
    ∀ se ∈ e.log, SequencedEvent.codec.Fits se := by
  have hlegal := (Step.run_inv h).legal
  intro se hse
  have hseq := hlegal.seqId_le hse
  refine SequencedEvent.fits (by omega) fun n hn => ?_
  cases hevent : se.event with
  | orderAccepted order =>
      have horder : order ∈ accepted e.log :=
        List.mem_filterMap.mpr ⟨se, hse, by rw [hevent]; rfl⟩
      have hcreated := hlegal.accepted_created order horder
      have hlast := Step.run_stampedAcceptances h order horder
      simp only [hevent, Event.counters, List.mem_cons, List.not_mem_nil,
        or_false] at hn
      omega
  | fill fill =>
      have hbehind := Step.run_fillsBehind h se hse fill hevent
      simp only [hevent, Event.counters, List.mem_singleton] at hn
      omega
  | _ => simp [hevent, Event.counters] at hn

theorem Step.run_rowFits {crypto : Crypto} {ops : List Op} {e : Engine}
    (h : Run (Step crypto) .new ops e) (hsmall : e.log.length < 2 ^ 63) :
    ∀ se ∈ e.log, PgRows.Fits se := by
  intro se hse
  have hseq := (Step.run_inv h).legal.seqId_le hse
  exact ⟨by omega, Step.run_eventsFit h (by omega) se hse⟩

/-- `main` goes on with an empty engine if it cannot read the rows. -/
def startFromRows (shuffle : Shuffle Order) (table : List Row) :
    Engine × Except ReplayError Unit :=
  match PgRows.loadAllEvents table with
  | some events => restart shuffle events
  | none => (startupEngine, .ok ())

/--
In every run of the server the rows hold a part of the log, in its order and
without loss.  The next start restores just that part if it has no gap and
names no order that it does not accept before, and stops otherwise; it never
stops on rows that begin the log.
-/
theorem rows_restart {crypto : Crypto} {ops : List Op} {e : Engine}
    {d : Deployment} {labels : List (Nat × Action)}
    (hstart : Run (Step crypto) .new ops e)
    (h : Run (Deployment.Step crypto) (.start e) labels d)
    (hsmall : d.server.engine.log.length < 2 ^ 63) (shuffle : Shuffle Order) :
    ∃ loaded, PgRows.loadAllEvents d.rows = some loaded ∧
      loaded.Sublist d.server.engine.log ∧
      (∀ se ∈ d.server.engine.log,
        se ∈ loaded ↔ ∃ row ∈ d.rows, row.seqId.toInt = se.seqId) ∧
      ((startFromRows shuffle d.rows).2 = .ok () ↔
        Gapless loaded ∧ SelfContained loaded) ∧
      ((startFromRows shuffle d.rows).2 = .ok () →
        (startFromRows shuffle d.rows).1.log = loaded) ∧
      (loaded <+: d.server.engine.log →
        (startFromRows shuffle d.rows).2 = .ok ()) := by
  have hserver := Deployment.Step.run_server h
  have hlogged := Server.Step.run_logged hstart hserver
  have hbatched := Server.Step.run_batched hstart hserver
  have hrows := Deployment.Step.run_rows hstart h hsmall
  obtain ⟨ops', hengine⟩ := Server.Step.run_engine hstart hserver
  have hfits := Step.run_rowFits hengine hsmall
  have hloaded : PgRows.loadAllEvents d.rows =
      some (d.server.engine.log.filter fun se => se ∈ d.server.stored) := by
    rw [hrows, ← hbatched.loadAllEvents hlogged]
    exact PgRows.loadAllEvents_map fun se hse =>
      hfits se (hbatched.stored se hse)
  generalize hpart : d.server.engine.log.filter
    (fun se => se ∈ d.server.stored) = loaded at hloaded
  have hsublist : loaded.Sublist d.server.engine.log :=
    hpart ▸ List.filter_sublist
  have hpositive : ∀ se ∈ loaded, se.seqId ≠ 0 := by
    intro se hse
    have htail := (hlogged.numbered.mem_tail 0 se.seqId).mp
      ⟨se, hsublist.subset hse, rfl⟩
    omega
  have hstarts : startFromRows shuffle d.rows = restart shuffle loaded := by
    rw [startFromRows, hloaded]
  refine ⟨loaded, hloaded, hsublist, fun se hse => ?_, ?_, ?_, ?_⟩
  · rw [← hpart, List.mem_filter, decide_eq_true_eq, hrows]
    constructor
    · rintro ⟨-, hstored⟩
      exact ⟨_, List.mem_map_of_mem hstored,
        PgRows.toInt_seqId (hfits se hse).number⟩
    · rintro ⟨row, hrow, hseq⟩
      obtain ⟨other, hother, rfl⟩ := List.mem_map.mp hrow
      have hin := hbatched.stored other hother
      rw [PgRows.toInt_seqId (hfits other hin).number, Int.ofNat_inj] at hseq
      obtain rfl := hlogged.eq_of_seqId hin hse hseq
      exact ⟨hse, hother⟩
  · rw [hstarts]
    exact restart_ok_iff shuffle hpositive
  · rw [hstarts]
    exact restart_log shuffle loaded
  · intro hbegins
    have hlegal := hlogged.legal.take loaded.length
    rw [← List.prefix_iff_eq_take.mp hbegins] at hlegal
    obtain ⟨progress, hwalk, -⟩ := hlegal.walk_ok
    rw [hstarts, restart_ok_iff shuffle hpositive]
    exact (walk_ok_iff hpositive).mp ⟨progress, hwalk⟩

theorem rows_restart_two :
    ∃ d, Run (Deployment.Step Sample.crypto)
        (.start (Sample.after [.addMarket Sample.market]))
        Sample.keptBatches d ∧
      d.server.engine.log.map SequencedEvent.seqId = [1, 2, 3] ∧
      (startFromRows .id d.rows).2 = .ok () ∧
      (startFromRows .id d.rows).1.log = d.server.engine.log := by
  obtain ⟨s, hs, hresult⟩ := Option.map_eq_some_iff.mp Sample.keptBatches_stored
  simp only [Prod.mk.injEq] at hresult
  obtain ⟨hstored, hlog, -⟩ := hresult
  have hserver := (Server.runAll_run hs).mono fun _ _ _ h => h.1
  obtain ⟨d, hrun, rfl⟩ := Deployment.Step.exists_run hserver
  have hlength : d.server.engine.log.length = 3 := by
    rw [← List.length_map (f := SequencedEvent.seqId), hlog]
    rfl
  obtain ⟨loaded, -, hsublist, hmem, -, hrestored, hbegins⟩ :=
    rows_restart Sample.fresh_run hrun (by omega) .id
  have hrows := Deployment.Step.run_rows Sample.fresh_run hrun (by omega)
  have hall : ∀ se ∈ d.server.engine.log, se ∈ loaded := by
    intro se hse
    have hseq : se.seqId ∈ d.server.stored.map SequencedEvent.seqId := by
      rw [hstored, ← hlog]
      exact List.mem_map_of_mem hse
    obtain ⟨row, hrow, hsame⟩ := List.mem_map.mp hseq
    have hsmall : row.seqId < 2 ^ 63 := by
      rw [hstored, ← hsame] at hseq
      simp only [List.mem_cons, List.not_mem_nil, or_false] at hseq
      omega
    rw [hmem se hse, hrows]
    exact ⟨_, List.mem_map_of_mem hrow, by
      rw [PgRows.toInt_seqId hsmall, hsame]⟩
  have hnodup : d.server.engine.log.Nodup := by
    refine List.Nodup.of_map SequencedEvent.seqId ?_
    rw [hlog]
    decide
  obtain rfl := hsublist.eq_of_length_le (hnodup.subperm hall).length_le
  have hok := hbegins (List.prefix_refl _)
  exact ⟨d, hrun, hlog, hok, hrestored hok⟩

end ClobApi
