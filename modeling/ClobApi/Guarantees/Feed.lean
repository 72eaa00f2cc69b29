import ClobApi.Guarantees.Persistence

/-!
# The live feed

The broadcast channel carries the envelopes of the log in its order as long as
no handler collects an event that another one has collected, none passes an
event over, and none sends before the earlier envelopes of others; then nothing
is missing once every handler has finished.
-/

namespace ClobApi

open Foundation

namespace Server

def feedSince (s : Server) (base : Nat) : List WsEnvelope :=
  (s.engine.log.drop base).flatMap WsEnvelope.fromSequenced

structure FollowsLog (base : Nat) (s : Server) : Prop where
  isPrefix : s.sent <+: s.feedSince base
  ascending : s.sent.Pairwise fun a b => a.sequenceId ≤ b.sequenceId
  nodup : s.sent.Nodup

/--
A step that collects only events which nobody has collected and before which
all are collected, sends nothing before the earlier envelopes of others, and by
which a handler gives up only what another one is still going to collect.
-/
structure PublishStep (crypto : Crypto) (base : Nat) (s : Server)
    (label : Nat × Action) (s' : Server) : Prop where
  step : Server.Step crypto s label s'
  inOrder : InOrder envelopes base label.1 (s.sendAct crypto label.1 label.2)
    s.sending s'.sending

section Run

variable {crypto : Crypto} {ops : List Op} {e : Engine}
  {labels : List (Nat × Action)} {s : Server}

theorem start_streaming (e : Engine) :
    Streaming envelopes e.log.length (start e).sending where
  behind := nofun
  queued := by
    refine ⟨e.log.length, [], Nat.le_refl _, Nat.le_refl _, List.nodup_nil,
      fun j => ?_, ?_, List.Pairwise.nil⟩
    · simp [sending, view, start, Phase.toSend, Debt.items]
    · simp [sending, view, start, Rendering.renderAll]

theorem PublishStep.run_streams (hstart : Run (ClobApi.Step crypto) .new ops e)
    (h : Run (PublishStep crypto e.log.length) (start e) labels s) :
    Streaming envelopes e.log.length s.sending ∧
      AccountedFor envelopes.stream e.log.length s.sending := by
  induction h with
  | start =>
      exact ⟨start_streaming e,
        fun n hbase hn => absurd hn (Nat.not_le.mpr hbase)⟩
  | next hrun hstep ih =>
      have hlogged := Step.run_logged hstart (hrun.mono fun _ _ _ h => h.step)
      have hship := hstep.step.sending hlogged
      have hstream := hship.streaming hlogged.numbered (sendAct_ne_fail _ _ _ _)
        hstep.inOrder ih.1
      exact ⟨hstream, (hship.accounted_iff hlogged.numbered _).mpr
        ⟨ih.2, hstep.inOrder.giveUp⟩⟩

theorem Step.run_sound (hstart : Run (ClobApi.Step crypto) .new ops e)
    (h : Run (Server.Step crypto) (start e) labels s) :
    Sound envelopes s.sending := by
  induction h with
  | start =>
      rintro item ⟨p, hp⟩
      cases p <;> cases hp
  | next hrun hstep ih =>
      exact (hstep.sending (Step.run_logged hstart hrun)).sound ih

/-- Where nothing is spoiled in the end, every step was in order. -/
theorem Step.run_publish (hstart : Run (ClobApi.Step crypto) .new ops e)
    (h : Run (Server.Step crypto) (start e) labels s)
    (hunspoiled : Unspoiled envelopes e.log.length s.sending) :
    Run (PublishStep crypto e.log.length) (start e) labels s := by
  induction h with
  | start => exact .start
  | next hrun hstep ih =>
      have hlogged := Step.run_logged hstart hrun
      obtain ⟨hbefore, horder⟩ :=
        (hstep.sending hlogged).unspoiled (sendAct_ne_fail _ _ _ _)
        hlogged.numbered (Step.run_sound hstart hrun) hunspoiled
      exact (ih hbefore).next ⟨hstep, horder⟩

theorem Logged.followsLog {base : Nat} (h : s.Logged)
    (hstream : Streaming envelopes base s.sending) : s.FollowsLog base := by
  have hascending :=
    h.numbered.pairwise.sublist (List.drop_sublist base s.engine.log)
  have hbegins := hstream.isPrefix
  have hsorted := Rendering.sorted_renderAll (r := envelopes) hascending
  have hnodup := Rendering.nodup_renderAll (r := envelopes) hascending
  exact ⟨hbegins, hsorted.sublist hbegins.sublist,
    hnodup.sublist hbegins.sublist⟩

/--
In runs whose steps collect and send in order and give up no event that no other
handler is going to collect, what is sent begins the feed, and it is the whole
feed once every handler has finished.  A run with a step that does otherwise
does not end with the feed.
-/
theorem feed_followsLog (hstart : Run (ClobApi.Step crypto) .new ops e) :
    (Run (PublishStep crypto e.log.length) (start e) labels s →
      s.FollowsLog e.log.length ∧
        (s.AllFinished → s.sent = s.feedSince e.log.length)) ∧
    (Run (Server.Step crypto) (start e) labels s → s.AllFinished →
      s.sent = s.feedSince e.log.length →
      Run (PublishStep crypto e.log.length) (start e) labels s) := by
  constructor
  · intro h
    have hlogged := Step.run_logged hstart (h.mono fun _ _ _ h => h.step)
    obtain ⟨hstream, haccounted⟩ := PublishStep.run_streams hstart h
    exact ⟨hlogged.followsLog hstream,
      fun hfinished =>
        hstream.complete hlogged.numbered haccounted hfinished.sending⟩
  · intro h hfinished hsent
    have hlogged := Step.run_logged hstart h
    exact Step.run_publish hstart h
      (unspoiled_of_complete hlogged.numbered hfinished.sending hsent)

end Run

end Server

/-! ## Two handlers -/

namespace Sample

open Server

/-- The second handler calls the engine before the first one collects. -/
def collectedTwice : List (Nat × Action) :=
  (0, .lock (.postOrder ask askEnv)) :: proceeds 0 1 ++
    (1, .lock (.postOrder bid bidEnv)) :: proceeds 1 1 ++
    proceeds 0 9 ++ proceeds 1 7

/--
The second handler calls the engine while the first one sends what it collected.
-/
def collectedOnce : List (Nat × Action) :=
  (0, .lock (.postOrder ask askEnv)) :: proceeds 0 3 ++
    (1, .lock (.postOrder bid bidEnv)) :: proceeds 1 1 ++
    proceeds 0 6 ++ proceeds 1 11

theorem collectedTwice_sent :
    (fresh.runAll crypto (fun _ => true) collectedTwice).map (fun s =>
      (s.sent.map WsEnvelope.sequenceId,
        s.engine.log.map SequencedEvent.seqId)) =
      some ([1, 1, 2, 2, 3, 3, 3, 2, 2, 3, 3, 3], [1, 2, 3]) := by
  decide +kernel

theorem collectedOnce_sent :
    (fresh.runAll crypto (fun _ => true) collectedOnce).map (fun s =>
      (s.sent.map WsEnvelope.sequenceId,
        decide (s.sent = s.feedSince fresh.engine.log.length),
        collectedOnce.all fun label => (s.handlers label.1).isDone)) =
      some ([1, 1, 2, 2, 3, 3, 3], true, true) := by
  decide +kernel

end Sample

namespace Server

theorem feed_repeats :
    ∃ s, Run (Server.Step Sample.crypto) Sample.fresh Sample.collectedTwice s ∧
      ¬ s.FollowsLog Sample.fresh.engine.log.length := by
  obtain ⟨s, hs, hresult⟩ :=
    Option.map_eq_some_iff.mp Sample.collectedTwice_sent
  refine ⟨s, (runAll_run hs).mono fun _ _ _ h => h.1, fun hfollows => ?_⟩
  have hascending := List.pairwise_map.mpr hfollows.ascending
  rw [(Prod.mk.inj hresult).1] at hascending
  exact absurd hascending (by decide)

theorem feed_followsLog_two :
    ∃ s, Run (PublishStep Sample.crypto Sample.fresh.engine.log.length)
        Sample.fresh Sample.collectedOnce s ∧
      s.sent.map WsEnvelope.sequenceId = [1, 1, 2, 2, 3, 3, 3] ∧
      s.FollowsLog Sample.fresh.engine.log.length := by
  obtain ⟨s, hs, hresult⟩ := Option.map_eq_some_iff.mp Sample.collectedOnce_sent
  simp only [Prod.mk.injEq, decide_eq_true_eq] at hresult
  obtain ⟨hids, hsent, hdone⟩ := hresult
  have hrun := (runAll_run hs).mono fun _ _ _ h => h.1
  have hfinished : s.AllFinished :=
    Step.run_allFinished hrun (List.all_eq_true.mp hdone)
  have hpublish := (feed_followsLog Sample.fresh_run).2 hrun hfinished hsent
  exact ⟨s, hpublish, hids, ((feed_followsLog Sample.fresh_run).1 hpublish).1⟩

end Server

end ClobApi
