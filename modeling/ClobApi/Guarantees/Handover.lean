import ClobApi.Api.Connection
import ClobApi.Api.Views
import ClobApi.Engine.Preservation
import ClobApi.Engine.Writes
import ClobApi.Foundation.Handover

/-!
# From replay to live events

After a `subscribe` with `from_seq` no event of the channel from that number on
is skipped: it was forwarded, or waits in the receiver, or has not been
broadcast.
-/

namespace ClobApi

open Foundation

namespace Connection

def Wanted (channel : String) (fromSeq : UInt64) (envelope : WsEnvelope) :
    Prop :=
  envelope.channel = channel ∧ fromSeq.toNat ≤ envelope.sequenceId

/-- What the connection has sent since its outbox held `already` messages. -/
def handover (s : Connection) (copy : List WsEnvelope) (already : Nat) :
    Handover WsEnvelope where
  log := envelopes.renderAll s.engine.log
  published := s.sent
  copy := copy
  inbox := s.receiver
  forwarded := (s.outbox.drop already).filterMap ServerMsg.event?

theorem mem_history {s : Connection} {channel : String} {fromSeq : UInt64}
    {envelope : WsEnvelope}
    (hmem : envelope ∈ envelopes.renderAll s.engine.log)
    (hwanted : Wanted channel fromSeq envelope) :
    envelope ∈ s.history channel fromSeq := by
  obtain ⟨se, hse, hrender⟩ := List.mem_flatMap.mp hmem
  have hnumber : envelope.sequenceId = se.seqId :=
    WsEnvelope.fromSequenced_sequenceId se envelope hrender
  have hfrom : fromSeq.toNat ≤ se.seqId := hnumber ▸ hwanted.2
  refine List.mem_filter.mpr ⟨List.mem_flatMap.mpr ⟨se, ?_, hrender⟩, ?_⟩
  · exact List.mem_filter.mpr ⟨hse, by simpa using hfrom⟩
  · simpa using hwanted.1

/-! ## The feed -/

/-- The engine is reachable and only events of its log were sent. -/
structure Sound (crypto : Crypto) (s : Connection) : Prop where
  reachable : ∃ ops, Run (ClobApi.Step crypto) .new ops s.engine
  sentLogged : ∀ envelope ∈ s.sent,
    envelope ∈ envelopes.renderAll s.engine.log

section Turns

variable {crypto : Crypto} {parse : String → Except String ClientMsg}
  {s s' : Connection} {happening : Happening}

theorem Sound.apply (h : s.Sound crypto) {op : Op}
    (hadmits : s.engine.Admits op) :
    ({ s with engine := (s.engine.apply crypto op).1 } : Connection).Sound
        crypto ∧
      ∃ new, envelopes.renderAll (s.engine.apply crypto op).1.log =
        envelopes.renderAll s.engine.log ++ new ∧
          ∀ envelope ∈ new, envelope ∉ s.sent := by
  obtain ⟨ops, hrun⟩ := h.reachable
  have hrun' := hrun.next ⟨hadmits, rfl⟩
  obtain ⟨rest, hrest⟩ := apply_log crypto hadmits
  have hnumbered : envelopes.Numbered (s.engine.apply crypto op).1.log :=
    (ClobApi.Step.run_inv hrun').legal.seqIds
  have hnodup := Rendering.nodup_renderAll hnumbered.pairwise
  rw [← hrest, Rendering.renderAll_append, List.nodup_append] at hnodup
  refine ⟨⟨⟨_, hrun'⟩, fun envelope hsent => ?_⟩, envelopes.renderAll rest,
    ?_, fun envelope hnew hsent => ?_⟩
  · rw [← hrest, Rendering.renderAll_append]
    exact List.mem_append_left _ (h.sentLogged envelope hsent)
  · rw [← hrest, Rendering.renderAll_append]
  · exact hnodup.2.2 envelope (h.sentLogged envelope hsent) envelope hnew rfl

theorem Sound.turn (h : s.Sound crypto)
    (hturn : Turn parse crypto s happening s') : s'.Sound crypto := by
  cases hturn with
  | engine hadmits => exact (h.apply hadmits).1
  | broadcast hlogged =>
      refine ⟨h.reachable, fun envelope hsent => ?_⟩
      rcases List.mem_append.mp hsent with hold | hnew
      · exact h.sentLogged envelope hold
      · exact (List.mem_singleton.mp hnew) ▸ hlogged
  | _ => exact ⟨h.reachable, h.sentLogged⟩

/-! ## The subscription -/

/-- Nothing is skipped, given what is left of the copy. -/
structure Carries (channel : String) (fromSeq : UInt64) (already : Nat)
    (copy : List WsEnvelope) (s : Connection) : Prop where
  started : already ≤ s.outbox.length
  noGap : (s.handover copy already).NoGap (Wanted channel fromSeq)

/-- The channel is subscribed, and the copy is worked off. -/
structure Live (channel : String) (fromSeq : UInt64) (already : Nat)
    (s : Connection) : Prop where
  subscribed : channel ∈ s.subscriptions
  carries : s.Carries channel fromSeq already []

inductive Progress (channel : String) (fromSeq : UInt64) (already : Nat)
    (s : Connection) : Prop
  | locking (task : s.task = .locking channel fromSeq)
      (started : already ≤ s.outbox.length)
  | replaying {copy : List WsEnvelope} (task : s.task = .replaying channel copy)
      (carries : s.Carries channel fromSeq already copy)
  | live (live : s.Live channel fromSeq already)

section Progress

variable {channel : String} {fromSeq : UInt64} {already : Nat}
  {copy : List WsEnvelope}

theorem handover_answer (hstarted : already ≤ s.outbox.length)
    (answers : List ServerMsg) :
    (s.handover copy already).forwarded ++
        answers.filterMap ServerMsg.event? =
      ((s.outbox ++ answers).drop already).filterMap ServerMsg.event? := by
  rw [List.drop_append_of_le_length hstarted, List.filterMap_append]
  rfl

theorem Carries.move (h : s.Carries channel fromSeq already copy)
    {copy' : List WsEnvelope} (answers : List ServerMsg)
    (houtbox : s'.outbox = s.outbox ++ answers)
    (hmove : (s.handover copy already).Move (Wanted channel fromSeq)
      { s'.handover copy' already with
        forwarded := (s.handover copy already).forwarded ++
          answers.filterMap ServerMsg.event? }) :
    s'.Carries channel fromSeq already copy' where
  started := by
    rw [houtbox, List.length_append]
    exact Nat.le_add_right_of_le h.started
  noGap := by
    have hnoGap := h.noGap.move hmove
    rw [handover_answer h.started, ← houtbox] at hnoGap
    exact hnoGap

theorem Carries.quiet (h : s.Carries channel fromSeq already copy)
    (answers : List ServerMsg) (houtbox : s'.outbox = s.outbox ++ answers)
    (hquiet : answers.filterMap ServerMsg.event? = [])
    (hengine : s'.engine = s.engine) (hsent : s'.sent = s.sent)
    (hreceiver : s'.receiver = s.receiver) :
    s'.Carries channel fromSeq already copy := by
  refine h.move answers houtbox ?_
  unfold handover
  rw [hquiet, List.append_nil, hengine, hsent, hreceiver]
  exact .idle

theorem Carries.engine (h : s.Carries channel fromSeq already copy)
    (hsound : s.Sound crypto) {op : Op} (hadmits : s.engine.Admits op) :
    ({ s with engine := (s.engine.apply crypto op).1 } : Connection).Carries
      channel fromSeq already copy := by
  obtain ⟨new, hnew, hfresh⟩ := (hsound.apply hadmits).2
  have hmove : (s.handover copy already).Move (Wanted channel fromSeq)
      { s.handover copy already with
        log := envelopes.renderAll s.engine.log ++ new } :=
    .append new hfresh
  rw [← hnew] at hmove
  refine h.move [] (List.append_nil _).symm ?_
  rw [List.filterMap_nil, List.append_nil]
  exact hmove

theorem Carries.broadcast (h : s.Carries channel fromSeq already copy)
    (envelope : WsEnvelope) :
    ({ s with
        sent := s.sent ++ [envelope]
        receiver := s.receiver ++ [envelope] } : Connection).Carries
      channel fromSeq already copy := by
  refine h.move [] (List.append_nil _).symm ?_
  rw [List.filterMap_nil, List.append_nil]
  exact .publish envelope

theorem Live.turn (h : s.Live channel fromSeq already)
    (hsound : s.Sound crypto) (hturn : Turn parse crypto s happening s')
    (hkeep : ¬ happening.Unsubscribes parse channel) :
    s'.Live channel fromSeq already := by
  obtain ⟨subscribed, carries⟩ := h
  cases hturn with
  | engine hadmits => exact ⟨subscribed, carries.engine hsound hadmits⟩
  | broadcast hlogged => exact ⟨subscribed, carries.broadcast _⟩
  | answer selecting noEvent =>
      exact ⟨subscribed, carries.quiet _ rfl noEvent rfl rfl rfl⟩
  | @unsubscribe raw other selecting parsed =>
      have hother : channel ≠ other := by
        rintro rfl
        exact hkeep parsed
      exact ⟨Finset.mem_erase.mpr ⟨hother, subscribed⟩,
        carries.quiet _ rfl rfl rfl rfl rfl⟩
  | subscribe | copy =>
      exact ⟨subscribed,
        carries.quiet [] (List.append_nil _).symm rfl rfl rfl rfl⟩
  | goLive ready =>
      exact ⟨Finset.mem_insert_of_mem subscribed,
        carries.quiet _ rfl rfl rfl rfl rfl⟩
  | @replay other envelope rest replaying =>
      exact ⟨subscribed, carries.move [.event envelope] rfl (.other envelope)⟩
  | @forward envelope rest selecting next forwarded =>
      exact ⟨subscribed, carries.move [.event envelope] rfl (.forward next)⟩
  | @skip envelope rest selecting next unsubscribed =>
      have hunwanted : ¬ Wanted channel fromSeq envelope := by
        rintro ⟨rfl, -⟩
        exact unsubscribed subscribed
      refine ⟨subscribed, carries.move [] (List.append_nil _).symm ?_⟩
      rw [List.filterMap_nil, List.append_nil]
      exact .skip next hunwanted

theorem Progress.turn (h : s.Progress channel fromSeq already)
    (hsound : s.Sound crypto) (hturn : Turn parse crypto s happening s')
    (hkeep : ¬ happening.Unsubscribes parse channel) :
    s'.Progress channel fromSeq already := by
  cases h with
  | locking task started =>
      cases hturn with
      | engine hadmits => exact .locking task started
      | broadcast hlogged => exact .locking task started
      | copy locking =>
          obtain ⟨rfl, rfl⟩ := Task.locking.inj (task.symm.trans locking)
          exact .replaying rfl
            ⟨started, Handover.noGap_copy fun _ hmem => mem_history hmem⟩
      | goLive ready => simp [task] at ready
      | replay replaying => simp [task] at replaying
      | answer selecting | unsubscribe selecting | subscribe selecting
      | forward selecting | skip selecting => simp [task] at selecting
  | replaying task carries =>
      cases hturn with
      | engine hadmits => exact .replaying task (carries.engine hsound hadmits)
      | broadcast hlogged => exact .replaying task (carries.broadcast _)
      | copy locking => simp [task] at locking
      | goLive ready =>
          rcases ready with selecting | replaying
          · simp [task] at selecting
          · obtain ⟨rfl, rfl⟩ := Task.replaying.inj (task.symm.trans replaying)
            exact .live ⟨Finset.mem_insert_self _ _,
              carries.quiet [.subscribed channel] rfl rfl rfl rfl rfl⟩
      | @replay channel' envelope rest replaying =>
          obtain ⟨rfl, rfl⟩ := Task.replaying.inj (task.symm.trans replaying)
          exact .replaying rfl
            (carries.move [.event envelope] rfl (.replay rfl))
      | answer selecting | unsubscribe selecting | subscribe selecting
      | forward selecting | skip selecting => simp [task] at selecting
  | live hlive => exact .live (hlive.turn hsound hturn hkeep)

theorem Sound.run (h : s.Sound crypto) {labels : List Happening}
    (hrun : Run (Turn parse crypto) s labels s') : s'.Sound crypto :=
  hrun.invariant h fun _ _ _ hsound hturn => hsound.turn hturn

theorem run_keeps {P : Connection → Prop}
    (hturn : ∀ {s happening s'}, P s → Sound crypto s →
      Turn parse crypto s happening s' →
        ¬ happening.Unsubscribes parse channel → P s')
    (h : P s) (hsound : s.Sound crypto) {labels : List Happening}
    (hrun : Run (Turn parse crypto) s labels s')
    (hkeep : ∀ happening ∈ labels, ¬ happening.Unsubscribes parse channel) :
    P s' := by
  induction hrun with
  | start => exact h
  | next hrun hlast ih =>
      have hbefore := ih fun other hother =>
        hkeep other (List.mem_append_left _ hother)
      exact hturn hbefore (hsound.run hrun) hlast (hkeep _ (by simp))

theorem Turn.run_outbox {labels : List Happening}
    (hrun : Run (Turn parse crypto) s labels s') : s.outbox <+: s'.outbox := by
  induction hrun with
  | start => exact List.prefix_refl _
  | next _ hturn ih => exact ih.trans hturn.outbox

end Progress

/-- What a live subscription has not forwarded is received or not yet sent. -/
theorem Live.forwarded {before frames : List ServerMsg}
    (h : s.Live channel fromSeq before.length)
    (hframes : s.outbox = before ++ frames) {se : SequencedEvent}
    (hse : se ∈ s.engine.log) (hfrom : fromSeq.toNat ≤ se.seqId)
    {envelope : WsEnvelope} (hmem : envelope ∈ WsEnvelope.fromSequenced se)
    (hchannel : envelope.channel = channel) :
    .event envelope ∈ frames ∨ envelope ∈ s.receiver ∨ envelope ∉ s.sent := by
  have hnumber := WsEnvelope.fromSequenced_sequenceId se envelope hmem
  have hwanted : Wanted channel fromSeq envelope :=
    ⟨hchannel, hnumber.symm ▸ hfrom⟩
  rcases h.carries.noGap envelope (List.mem_flatMap.mpr ⟨se, hse, hmem⟩)
    hwanted with hforwarded | hcopy | hreceiver | hlater
  · obtain ⟨message, hmessage, hevent⟩ := List.mem_filterMap.mp hforwarded
    rw [hframes, List.drop_left] at hmessage
    cases message with
    | event envelope' =>
        obtain rfl := Option.some.inj hevent
        exact .inl hmessage
    | _ => cases hevent
  · cases hcopy
  · exact .inr (.inl hreceiver)
  · exact .inr (.inr hlater)

end Turns

/--
After `subscribe` with `from_seq` was handled, and as long as nobody ends the
subscription and the connection is neither closed nor lagged, every envelope of
the channel from that number on was forwarded since, is still in the receiver,
or has not been broadcast.
-/
theorem handover_noGap {crypto : Crypto}
    {parse : String → Except String ClientMsg} {ops : List Op} {e : Engine}
    {sent : List WsEnvelope} {before handling after : List Happening}
    {s s₁ s₂ : Connection} {raw channel : String} {fromSeq : UInt64}
    (hstart : Run (ClobApi.Step crypto) .new ops e)
    (hsent : ∀ envelope ∈ sent, envelope ∈ envelopes.renderAll e.log)
    (hbefore : Run (Step parse crypto) (start e sent) before s)
    (hparse : parse raw = .ok (.subscribe channel fromSeq))
    (hpositive : 0 < fromSeq)
    (hhandling : Run (Step parse crypto) s
      (.client (.text raw) :: handling) s₁)
    (hhandled : s₁.task = .selecting)
    (hafter : Run (Step parse crypto) s₁ after s₂)
    (hkeep : ∀ happening ∈ handling ++ after,
      ¬ happening.Unsubscribes parse channel)
    (halive : s₂.Alive) :
    ∃ frames, s₂.outbox = s.outbox ++ frames ∧
      ∀ se ∈ s₂.engine.log, fromSeq.toNat ≤ se.seqId →
        ∀ envelope ∈ WsEnvelope.fromSequenced se, envelope.channel = channel →
          .event envelope ∈ frames ∨ envelope ∈ s₂.receiver ∨
            envelope ∉ s₂.sent := by
  obtain ⟨halive₁, hafter⟩ := Step.run_turn hafter halive
  obtain ⟨m, hfirst, hhandling⟩ := hhandling.uncons
  obtain ⟨halivem, hhandling⟩ := Step.run_turn hhandling halive₁
  have halive₀ := (step_move hfirst).alive halivem
  have hsound : s.Sound crypto :=
    Sound.run ⟨⟨ops, hstart⟩, hsent⟩ (Step.run_turn hbefore halive₀).2
  have hlocked := subscribe_locks hfirst hparse hpositive
  have hsoundm : m.Sound crypto := by
    rw [hlocked]
    exact ⟨hsound.reachable, hsound.sentLogged⟩
  have hlocking : m.Progress channel fromSeq s.outbox.length := by
    rw [hlocked]
    exact .locking rfl (Nat.le_refl _)
  have hprogress : s₁.Progress channel fromSeq s.outbox.length :=
    run_keeps (fun h => h.turn) hlocking hsoundm hhandling
      fun happening hmem => hkeep happening (List.mem_append_left _ hmem)
  -- handled: the subscription is live
  have hlive : s₁.Live channel fromSeq s.outbox.length := by
    cases hprogress with
    | locking task => simp [hhandled] at task
    | replaying task => simp [hhandled] at task
    | live hlive => exact hlive
  have hlive₂ : s₂.Live channel fromSeq s.outbox.length :=
    run_keeps (fun h => h.turn) hlive (hsoundm.run hhandling) hafter
      fun happening hmem => hkeep happening (List.mem_append_right _ hmem)
  have houtbox : m.outbox = s.outbox := by rw [hlocked]
  obtain ⟨frames, hframes⟩ : s.outbox <+: s₂.outbox :=
    houtbox ▸ (Turn.run_outbox hhandling).trans (Turn.run_outbox hafter)
  exact ⟨frames, hframes.symm, fun se hse hfrom envelope hmem hchannel =>
    hlive₂.forwarded hframes.symm hse hfrom hmem hchannel⟩

/-! ## A session that trades while it replays -/

instance (s : Connection) (happening : Happening) :
    Decidable (s.Admits happening) := by
  cases happening <;> unfold Admits <;> infer_instance

/-- The happenings one after the other. -/
def follow (parse : String → Except String ClientMsg) (crypto : Crypto)
    (s : Connection) (happenings : List Happening) : Option Connection :=
  happenings.foldlM (fun s happening =>
    if s.Admits happening then s.step parse crypto happening else none) s

theorem follow_run {parse : String → Except String ClientMsg} {crypto : Crypto}
    {init s : Connection} {happenings : List Happening}
    (h : init.follow parse crypto happenings = some s) :
    Run (Step parse crypto) init happenings s := by
  refine Run.of_foldlM (fun s happening s' hnext => ?_) h
  split at hnext
  · next hadmits => exact ⟨hadmits, hnext⟩
  · cases hnext

end Connection

namespace Sample

def subscribeText : String :=
  "\x7b\"action\":\"subscribe\"," ++
    "\"channel\":\"book.l3.BTC-USD\",\"from_seq\":1\x7d"

def parseFrame : String → Except String ClientMsg := fun raw =>
  if raw = subscribeText then .ok (.subscribe "book.l3.BTC-USD" 1)
  else .error "expected value at line 1 column 1"

def bidAccepted : WsEnvelope where
  channel := "book.l3.BTC-USD"
  sequenceId := 2
  eventType := "order_accepted"
  payload := .orderAccepted bidOrder
  timestampMs := 2000

/-- The log is copied, then a buy order is accepted and its event is sent. -/
def subscribed : Option Connection :=
  (Connection.start (after [.addMarket market, .processOrder ask askEnv])
    []).follow parseFrame crypto
    [.client (.text subscribeText), .proceed,
      .engine (.processOrder bid bidEnv), .proceed, .broadcast bidAccepted,
      .proceed]

def listened : Option Connection :=
  subscribed.bind fun s => s.follow parseFrame crypto [.receive]

theorem handover_noGap_traded :
    ∃ s, listened = some s ∧ ∃ frames, s.outbox = [] ++ frames ∧
      ∀ se ∈ s.engine.log, UInt64.toNat 1 ≤ se.seqId →
        ∀ envelope ∈ WsEnvelope.fromSequenced se,
          envelope.channel = "book.l3.BTC-USD" →
            .event envelope ∈ frames ∨ envelope ∈ s.receiver ∨
              envelope ∉ s.sent := by
  have htask : subscribed.map Connection.task = some .selecting := by
    decide +kernel
  obtain ⟨s₁, hsubscribed, hhandled⟩ := Option.map_eq_some_iff.mp htask
  have halive : listened.map (fun s => (s.connected, s.overwritten, s.task)) =
      some (true, false, .selecting) := by
    decide +kernel
  obtain ⟨s₂, hlistened, hlink⟩ := Option.map_eq_some_iff.mp halive
  simp only [Prod.mk.injEq] at hlink
  obtain ⟨hconnected, hintact, hrunning⟩ := hlink
  have hreceived : s₁.follow parseFrame crypto [.receive] = some s₂ := by
    rw [listened, hsubscribed] at hlistened
    exact hlistened
  refine ⟨s₂, hlistened, ?_⟩
  exact Connection.handover_noGap
    (asked_run.mono fun _ _ _ hstep => hstep.1) (by simp) .start rfl (by decide)
    (Connection.follow_run hsubscribed) hhandled
    (Connection.follow_run hreceived) (by simp [Happening.Unsubscribes])
    ⟨hconnected, hintact, by simp [hrunning]⟩

end Sample

/-! ## The handlers feed the connection -/

namespace Server

section Feed

variable {crypto : Crypto} {parse : String → Except String ClientMsg}
  {t t' : Server} {i : Nat} {action : Action}

/-- What the handlers have collected for sending comes from the log. -/
def Collected (t : Server) : Prop :=
  ∀ i seqBefore batch, t.handlers i = .publishing seqBefore (.copied batch) →
    ∀ envelope ∈ batch, envelope ∈ envelopes.renderAll t.engine.log

theorem Move.log (h : t.Move crypto i action t') (hadmits : t.Admits i) :
    t.engine.log <+: t'.engine.log := by
  rcases h.engine hadmits with hsame | ⟨op, hop, hengine⟩
  · rw [hsame]
  · rw [← hengine]
    exact apply_log crypto hop

theorem renderAll_mono {log log' : List SequencedEvent} (h : log <+: log')
    {envelope : WsEnvelope} (hmem : envelope ∈ envelopes.renderAll log) :
    envelope ∈ envelopes.renderAll log' := by
  obtain ⟨rest, rfl⟩ := h
  rw [Rendering.renderAll_append]
  exact List.mem_append_left _ hmem

theorem Collected.move (h : t.Collected) (hmove : t.Move crypto i action t')
    (hadmits : t.Admits i) : t'.Collected := by
  intro j seqBefore batch hphase envelope hmem
  by_cases hj : j = i
  · subst hj
    cases hmove with
    | call phase =>
        simp only [callEngine] at hphase
        split at hphase <;> simp [release, Server.move] at hphase
    | @collect before phase =>
        simp only [release, Server.move, Function.update_self,
          Phase.publishing.injEq, Stage.copied.injEq] at hphase
        obtain ⟨-, rfl⟩ := hphase
        obtain ⟨se, hse, hrender⟩ := List.mem_flatMap.mp hmem
        exact List.mem_flatMap.mpr ⟨se, (List.mem_filter.mp hse).1, hrender⟩
    | @send before sentNow rest phase =>
        simp only [Server.move, Function.update_self, Phase.publishing.injEq,
          Stage.copied.injEq] at hphase
        obtain ⟨-, rfl⟩ := hphase
        exact h j before _ phase envelope (.tail _ hmem)
    | _ => simp [acquire, release, Server.move] at hphase
  · rw [hmove.handlers_of_ne hj] at hphase
    exact renderAll_mono (hmove.log hadmits) (h j _ _ hphase envelope hmem)

theorem Collected.feed (h : t.Collected) (hmove : t.Move crypto i action t')
    (hadmits : t.Admits i) :
    t'.sent = t.sent ∧ (t'.engine = t.engine ∨
        ∃ op, ClobApi.Step crypto t.engine op t'.engine) ∨
      t'.engine = t.engine ∧
        ∃ envelope ∈ envelopes.renderAll t.engine.log,
          t'.sent = t.sent ++ [envelope] := by
  have hengine := hmove.engine hadmits
  cases hmove with
  | @send before envelope rest phase =>
      exact .inr ⟨rfl, envelope, h i before _ phase envelope (.head _), rfl⟩
  | @call request phase => exact .inl ⟨callEngine_sent _ _ _ _, hengine⟩
  | _ => exact .inl ⟨rfl, hengine⟩

def unread (e : Engine) (sent : List WsEnvelope) : Connection :=
  { Connection.start e sent with receiver := sent }

/-- A connection sees every run of the handlers as engine steps and sends. -/
theorem Step.run_followed {e : Engine} {labels : List (Nat × Action)}
    (h : Run (Server.Step crypto) (start e) labels t) :
    t.Collected ∧ ∃ happenings,
      Run (Connection.Step parse crypto) (Connection.start e []) happenings
        (unread t.engine t.sent) := by
  induction h with
  | start =>
      refine ⟨?_, [], .start⟩
      intro i before batch hphase
      cases hphase
  | @next labels t label t' hrun hstep ih =>
      obtain ⟨hcollected, happenings, hfollowed⟩ := ih
      have hmove := step_move hstep.2
      refine ⟨hcollected.move hmove hstep.1, ?_⟩
      rcases hcollected.feed hmove hstep.1 with
        ⟨hsent, hsame | ⟨op, hop⟩⟩ | ⟨hsame, envelope, hlogged, hsent⟩
      · rw [hsent, hsame]
        exact ⟨_, hfollowed⟩
      · have hnext : Connection.Step parse crypto (unread t.engine t.sent)
            (.engine op) (unread (t.engine.apply crypto op).1 t.sent) :=
          ⟨hop.1, rfl⟩
        rw [hsent, ← hop.2]
        exact ⟨_, hfollowed.next hnext⟩
      · have hnext : Connection.Step parse crypto (unread t.engine t.sent)
            (.broadcast envelope)
            (unread t.engine (t.sent ++ [envelope])) :=
          ⟨trivial, if_pos hlogged⟩
        rw [hsent, hsame]
        exact ⟨_, hfollowed.next hnext⟩

end Feed

end Server

end ClobApi
