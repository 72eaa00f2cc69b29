import ClobApi.Guarantees.Handover

/-!
# The conversation on a WebSocket

What a client hears on its connection, also when it lags or hangs up: one answer
to each of its messages, in their order, and events of the log on channels it
has asked for.  The receiver passes over no message of the feed; where messages
are lost, the connection ends.
-/

namespace ClobApi

open Foundation

/-! ## What the client has asked for -/

section Client

variable (parse : String → Except String ClientMsg)

/-- The client has asked for the channel and not for its end since. -/
def Asked (labels : List Happening) (channel : String) : Prop :=
  (labels.filterMap (Happening.asks? parse channel)).getLast? = some true

variable {parse} {labels : List Happening} {happening : Happening}
  {channel : String}

theorem asked_append_of_none (h : happening.asks? parse channel = none) :
    Asked parse (labels ++ [happening]) channel ↔
      Asked parse labels channel := by
  simp [Asked, h]

theorem asked_append_of_some {wanted : Bool}
    (h : happening.asks? parse channel = some wanted) :
    Asked parse (labels ++ [happening]) channel ↔ wanted = true := by
  simp [Asked, h]

theorem asks?_subscribe {raw other : String} {fromSeq : UInt64}
    (hparse : parse raw = .ok (.subscribe other fromSeq)) :
    Happening.asks? parse channel (.client (.text raw)) =
      if other = channel then some true else none := by
  simp [Happening.asks?, hparse]

theorem asks?_unsubscribe {raw other : String}
    (hparse : parse raw = .ok (.unsubscribe other)) :
    Happening.asks? parse channel (.client (.text raw)) =
      if other = channel then some false else none := by
  simp [Happening.asks?, hparse]

end Client

def ServerMsg.isEvent (msg : ServerMsg) : Bool := msg.event?.isSome

def answersIn (messages : List ServerMsg) : List ServerMsg :=
  messages.filter fun msg => !msg.isEvent

theorem answersIn_append (messages messages' : List ServerMsg) :
    answersIn (messages ++ messages') =
      answersIn messages ++ answersIn messages' :=
  List.filter_append _ _

theorem replyTo_isEvent {parse : String → Except String ClientMsg}
    (raw : String) : (replyTo parse raw).isEvent = false := by
  rw [ServerMsg.isEvent, replyTo_event?]
  rfl

def yielded (labels : List Happening) : Nat :=
  labels.countP Happening.isReceive

def Task.channel? : Task → Option String
  | .locking channel _ | .replaying channel _ => some channel
  | .selecting | .ended => none

def Task.copy : Task → List WsEnvelope
  | .replaying _ envelopes => envelopes
  | _ => []

def Task.owes (task : Task) : List ServerMsg :=
  (task.channel?.map ServerMsg.subscribed).toList

namespace Connection

/-! ## What a run keeps -/

/-- The subscriptions are those asked for, while one may replay the log. -/
structure Subscribed (parse : String → Except String ClientMsg)
    (labels : List Happening) (s : Connection) : Prop where
  live : ∀ channel, s.task.channel? ≠ some channel →
    (channel ∈ s.subscriptions ↔ Asked parse labels channel)
  replayed : ∀ channel, s.task.channel? = some channel →
    Asked parse labels channel

/-- Nothing is on its way that is not in the log. -/
structure Sourced (s : Connection) : Prop where
  received : ∀ envelope ∈ s.receiver,
    envelope ∈ envelopes.renderAll s.engine.log
  copied : ∀ envelope ∈ s.task.copy,
    envelope ∈ envelopes.renderAll s.engine.log ∧
      s.task.channel? = some envelope.channel

/-- Unless a message was lost, the receiver holds the rest of the feed. -/
def OnFeed (base : Nat) (labels : List Happening) (s : Connection) : Prop :=
  s.overwritten = false → base + yielded labels ≤ s.sent.length ∧
    s.sent.drop (base + yielded labels) = s.receiver

/-- Every message is answered in its turn, as long as the client listens. -/
structure Answered (parse : String → Except String ClientMsg)
    (labels : List Happening) (s : Connection) : Prop where
  listening : s.connected = true → answersIn s.outbox ++ s.task.owes =
    labels.filterMap (Happening.reply? parse)
  inTurn : answersIn s.outbox <+: labels.filterMap (Happening.reply? parse)

section Kept

variable {parse : String → Except String ClientMsg} {crypto : Crypto}
  {s s' : Connection} {happening : Happening} {labels : List Happening}

theorem Subscribed.keep (h : s.Subscribed parse labels)
    (hasks : ∀ channel, happening.asks? parse channel = none)
    (hsubscriptions : s'.subscriptions = s.subscriptions)
    (htask : s'.task.channel? = s.task.channel?) :
    s'.Subscribed parse (labels ++ [happening]) where
  live channel hother := by
    rw [asked_append_of_none (hasks channel), hsubscriptions]
    exact h.live channel (htask ▸ hother)
  replayed channel htasked := by
    rw [asked_append_of_none (hasks channel)]
    exact h.replayed channel (htask ▸ htasked)

theorem Subscribed.move (h : s.Subscribed parse labels)
    (hmove : Move parse crypto s happening s') :
    s'.Subscribed parse (labels ++ [happening]) := by
  have hnone : s.task = .selecting → ∀ channel,
      s.task.channel? ≠ some channel := by
    rintro hselecting channel
    rw [hselecting]
    exact Option.some_ne_none channel |>.symm
  cases hmove with
  | engine | broadcast | overwrite | hangUp | ignore =>
      exact h.keep (fun _ => rfl) rfl rfl
  | answer selecting asksNothing => exact h.keep asksNothing rfl rfl
  | leave selecting silent idle asksNothing =>
      exact h.keep asksNothing rfl (by rw [selecting]; rfl)
  | lag selecting lagged =>
      exact h.keep (fun _ => rfl) rfl (by rw [selecting]; rfl)
  | forward selecting intact oldest subscribed =>
      refine h.keep (fun _ => rfl) rfl ?_
      rw [selecting]
      dsimp only
      split <;> rfl
  | skip selecting intact oldest unsubscribed =>
      exact h.keep (fun _ => rfl) rfl rfl
  | copy locking => exact h.keep (fun _ => rfl) rfl (by rw [locking]; rfl)
  | replay replaying connected =>
      exact h.keep (fun _ => rfl) rfl (by rw [replaying]; rfl)
  | @subscribe raw other fromSeq selecting parsed positive =>
      refine ⟨fun channel hother => ?_, fun channel hsame => ?_⟩
      · have hne : other ≠ channel := fun heq => hother (congrArg some heq)
        rw [asked_append_of_none (by rw [asks?_subscribe parsed, if_neg hne])]
        exact h.live channel (hnone selecting channel)
      · have heq : other = channel := Option.some.inj hsame
        exact (asked_append_of_some
          (by rw [asks?_subscribe parsed, if_pos heq])).mpr rfl
  | @goLive raw other fromSeq selecting parsed =>
      refine ⟨fun channel _ => ?_, fun channel hsame => by cases hsame⟩
      rw [Finset.mem_insert]
      by_cases heq : other = channel
      · rw [asked_append_of_some
          (by rw [asks?_subscribe parsed, if_pos heq])]
        exact iff_of_true (.inl heq.symm) rfl
      · rw [asked_append_of_none (by rw [asks?_subscribe parsed, if_neg heq]),
          ← h.live channel (hnone selecting channel)]
        exact or_iff_right (Ne.symm heq)
  | @unsubscribe raw other selecting parsed =>
      refine ⟨fun channel _ => ?_, fun channel hsame =>
        absurd hsame (hnone selecting channel)⟩
      rw [Finset.mem_erase]
      by_cases heq : other = channel
      · rw [asked_append_of_some
          (by rw [asks?_unsubscribe parsed, if_pos heq])]
        exact iff_of_false (fun hmem => hmem.1 heq.symm) Bool.false_ne_true
      · rw [asked_append_of_none
            (by rw [asks?_unsubscribe parsed, if_neg heq]),
          ← h.live channel (hnone selecting channel)]
        exact and_iff_right (Ne.symm heq)
  | @finish other copy replaying done =>
      refine ⟨fun channel _ => ?_, fun channel hsame => by cases hsame⟩
      rw [asked_append_of_none rfl, Finset.mem_insert]
      by_cases heq : other = channel
      · exact iff_of_true (.inl heq.symm)
          (h.replayed channel (by rw [replaying, ← heq]; rfl))
      · have hother : s.task.channel? ≠ some channel := by
          rw [replaying]
          exact fun hsame => heq (Option.some.inj hsame)
        rw [← h.live channel hother]
        exact or_iff_right (Ne.symm heq)

theorem history_logged {channel : String} {fromSeq : UInt64}
    {envelope : WsEnvelope} (h : envelope ∈ s.history channel fromSeq) :
    envelope ∈ envelopes.renderAll s.engine.log ∧
      envelope.channel = channel := by
  obtain ⟨hmem, hchannel⟩ := List.mem_filter.mp h
  obtain ⟨se, hse, hrendered⟩ := List.mem_flatMap.mp hmem
  exact ⟨List.mem_flatMap.mpr ⟨se, (List.mem_filter.mp hse).1, hrendered⟩,
    of_decide_eq_true hchannel⟩

theorem Sourced.move (h : s.Sourced)
    (hmove : Move parse crypto s happening s') : s'.Sourced := by
  cases hmove with
  | engine admits =>
      have hlog := apply_log crypto admits
      exact ⟨fun envelope hmem =>
          Server.renderAll_mono hlog (h.received envelope hmem),
        fun envelope hmem => (h.copied envelope hmem).imp_left
          (Server.renderAll_mono hlog)⟩
  | @broadcast envelope logged =>
      refine ⟨fun other hother => ?_, h.copied⟩
      rcases List.mem_append.mp hother with hold | hnew
      · exact h.received other hold
      · exact List.mem_singleton.mp hnew ▸ logged
  | overwrite oldest | skip _ _ oldest =>
      exact ⟨fun envelope hmem => h.received envelope
        (oldest ▸ List.mem_cons_of_mem _ hmem), h.copied⟩
  | hangUp | answer | unsubscribe | ignore => exact ⟨h.received, h.copied⟩
  | subscribe | goLive | leave | lag | finish =>
      exact ⟨h.received, fun envelope hmem => by cases hmem⟩
  | forward selecting intact oldest subscribed =>
      refine ⟨fun envelope hmem => h.received envelope
        (oldest ▸ List.mem_cons_of_mem _ hmem), fun envelope hmem => ?_⟩
      dsimp only at hmem
      split at hmem <;> cases hmem
  | copy locking =>
      refine ⟨h.received, fun envelope hmem => ?_⟩
      obtain ⟨hlogged, hchannel⟩ := history_logged hmem
      exact ⟨hlogged, congrArg some hchannel.symm⟩
  | replay replaying connected =>
      refine ⟨h.received, fun envelope hmem => ?_⟩
      have hcopied := h.copied envelope
      rw [replaying] at hcopied
      exact hcopied (List.mem_cons_of_mem _ hmem)

theorem yielded_append (labels : List Happening) (happening : Happening) :
    yielded (labels ++ [happening]) =
      yielded labels + if happening.isReceive then 1 else 0 := by
  simp [yielded, List.countP_append, List.countP_cons]

theorem OnFeed.move {base : Nat} (h : s.OnFeed base labels)
    (hmove : Move parse crypto s happening s') :
    s'.OnFeed base (labels ++ [happening]) := by
  have hkeep : happening.isReceive = false →
      yielded (labels ++ [happening]) = yielded labels := by
    intro hother
    rw [yielded_append, hother]
    rfl
  have htake : ∀ {envelope rest}, s.overwritten = false →
      s.receiver = envelope :: rest → happening = .receive →
        base + yielded (labels ++ [happening]) ≤ s.sent.length ∧
          s.sent.drop (base + yielded (labels ++ [happening])) = rest := by
    rintro envelope rest hintact holdest rfl
    obtain ⟨hle, hdrop⟩ := h hintact
    rw [holdest] at hdrop
    have hlength := congrArg List.length hdrop
    rw [List.length_drop, List.length_cons] at hlength
    rw [yielded_append]
    change base + (yielded labels + 1) ≤ _ ∧
      s.sent.drop (base + yielded labels + 1) = _
    refine ⟨by omega, ?_⟩
    rw [← List.drop_drop, hdrop]
    rfl
  intro hintact
  cases hmove with
  | @broadcast envelope logged =>
      obtain ⟨hle, hdrop⟩ := h hintact
      rw [hkeep rfl]
      refine ⟨?_, ?_⟩
      · rw [List.length_append]
        exact Nat.le_add_right_of_le hle
      · rw [List.drop_append_of_le_length hle, hdrop]
  | overwrite oldest => cases hintact
  | leave selecting silent idle asksNothing =>
      rw [hkeep idle]
      exact h hintact
  | forward selecting intact oldest subscribed => exact htake intact oldest rfl
  | skip selecting intact oldest unsubscribed => exact htake intact oldest rfl
  | _ =>
      rw [hkeep rfl]
      exact h hintact

theorem Answered.say (h : s.Answered parse labels) (answers : List ServerMsg)
    (houtbox : s'.outbox = s.outbox ++ s.heard answers)
    (hconnected : s'.connected = s.connected)
    (hanswers : answersIn answers ++ s'.task.owes =
      s.task.owes ++ (happening.reply? parse).toList) :
    s'.Answered parse (labels ++ [happening]) := by
  have hreplies : (labels ++ [happening]).filterMap
      (Happening.reply? parse) =
        labels.filterMap (Happening.reply? parse) ++
          (happening.reply? parse).toList := by
    rw [List.filterMap_append]
    cases hreply : happening.reply? parse <;> simp [hreply]
  have hlistening : s.connected = true →
      answersIn s'.outbox ++ s'.task.owes =
        (labels ++ [happening]).filterMap (Happening.reply? parse) := by
    intro hlistens
    rw [houtbox, heard, if_pos hlistens, answersIn_append, List.append_assoc,
      hanswers, ← List.append_assoc, h.listening hlistens, hreplies]
  refine ⟨fun hlistens => hlistening (hconnected ▸ hlistens), ?_⟩
  by_cases hlistens : s.connected = true
  · rw [← hlistening hlistens]
    exact List.prefix_append _ _
  · rw [houtbox, heard, if_neg hlistens, List.append_nil, hreplies]
    exact h.inTurn.trans (List.prefix_append _ _)

theorem Answered.quiet (h : s.Answered parse labels)
    (hreply : happening.reply? parse = none)
    (houtbox : s'.outbox = s.outbox) (hconnected : s'.connected = s.connected)
    (htask : s'.task.owes = s.task.owes) :
    s'.Answered parse (labels ++ [happening]) := by
  refine h.say [] ?_ hconnected ?_
  · rw [houtbox, heard, ite_self, List.append_nil]
  · rw [hreply, htask]
    exact (List.append_nil _).symm

theorem Answered.move (h : s.Answered parse labels)
    (hmove : Move parse crypto s happening s') :
    s'.Answered parse (labels ++ [happening]) := by
  cases hmove with
  | engine | broadcast | overwrite | ignore => exact h.quiet rfl rfl rfl rfl
  | hangUp =>
      refine ⟨fun hlistens => absurd hlistens Bool.false_ne_true, ?_⟩
      rw [List.filterMap_append]
      exact h.inTurn.trans (List.prefix_append _ _)
  | @answer raw selecting asksNothing =>
      refine h.say [replyTo parse raw] rfl rfl ?_
      simp [answersIn, replyTo_isEvent, selecting, Task.owes, Task.channel?,
        Happening.reply?]
  | @subscribe raw channel fromSeq selecting parsed =>
      refine h.say [] (by simp [heard]) rfl ?_
      simp [answersIn, selecting, Task.owes, Task.channel?, Happening.reply?,
        replyTo, parsed]
  | @goLive raw channel fromSeq selecting parsed =>
      refine h.say [.subscribed channel] rfl rfl ?_
      simp [answersIn, selecting, Task.owes, Task.channel?, Happening.reply?,
        replyTo, parsed, ServerMsg.isEvent, ServerMsg.event?]
  | @unsubscribe raw channel selecting parsed =>
      refine h.say [.unsubscribed channel] rfl rfl ?_
      simp [answersIn, selecting, Task.owes, Task.channel?, Happening.reply?,
        replyTo, parsed, ServerMsg.isEvent, ServerMsg.event?]
  | leave selecting silent idle asksNothing =>
      exact h.quiet silent rfl rfl (by rw [selecting]; rfl)
  | lag selecting lagged =>
      refine h.say [.disconnected "lagged"] rfl rfl ?_
      rw [selecting]
      rfl
  | @forward envelope rest selecting intact oldest subscribed =>
      refine h.say [.event envelope] rfl rfl ?_
      rw [selecting]
      dsimp only
      split <;> rfl
  | skip selecting intact oldest unsubscribed =>
      exact h.quiet rfl rfl rfl rfl
  | copy locking => exact h.quiet rfl rfl rfl (by rw [locking]; rfl)
  | @replay channel envelope rest replaying connected =>
      refine h.say [.event envelope] rfl rfl ?_
      rw [replaying]
      rfl
  | @finish channel copy replaying =>
      refine h.say [.subscribed channel] rfl rfl ?_
      rw [replaying]
      rfl

end Kept

/-! ## Runs of a connection -/

structure Conversing (parse : String → Except String ClientMsg) (base : Nat)
    (labels : List Happening) (s : Connection) : Prop where
  subscribed : s.Subscribed parse labels
  sourced : s.Sourced
  onFeed : s.OnFeed base labels
  answered : s.Answered parse labels

/-- What a step sends to a client after the happenings `labels`. -/
structure Says (parse : String → Except String ClientMsg) (base : Nat)
    (labels : List Happening) (s : Connection) (happening : Happening)
    (s' : Connection) (new : List ServerMsg) : Prop where
  outbox : s'.outbox = s.outbox ++ new
  silent : s.task = .ended ∨ s.connected = false → new = []
  asked : ∀ envelope, .event envelope ∈ new →
    Asked parse labels envelope.channel ∧
      envelope ∈ envelopes.renderAll s.engine.log
  next : happening = .receive → s.connected = true →
    ∃ envelope, s.sent[base + yielded labels]? = some envelope ∧
      (Asked parse labels envelope.channel ∧ new = [.event envelope] ∨
        ¬ Asked parse labels envelope.channel ∧ new = [])

section Run

variable {parse : String → Except String ClientMsg} {crypto : Crypto}
  {s s' : Connection} {happening : Happening} {labels : List Happening}
  {e : Engine} {sent : List WsEnvelope} {base : Nat}

theorem Step.run_conversing
    (h : Run (Step parse crypto) (start e sent) labels s) :
    s.Conversing parse sent.length labels := by
  induction h with
  | start =>
      have hsubscribed : (start e sent).Subscribed parse [] := by
        refine ⟨fun channel _ => ?_, fun channel hsame => ?_⟩
        · simp [start, Asked]
        · cases hsame
      have hsourced : (start e sent).Sourced := by
        refine ⟨fun envelope hmem => ?_, fun envelope hmem => ?_⟩
        · cases hmem
        · cases hmem
      exact ⟨hsubscribed, hsourced, fun _ => ⟨Nat.le_refl _, List.drop_length⟩,
        ⟨fun _ => rfl, List.prefix_refl _⟩⟩
  | next _ hstep ih =>
      have hmove := step_move hstep
      exact ⟨ih.subscribed.move hmove, ih.sourced.move hmove,
        ih.onFeed.move hmove, ih.answered.move hmove⟩

theorem exists_says (answers : List ServerMsg)
    (houtbox : s'.outbox = s.outbox ++ s.heard answers)
    (hrunning : answers = [] ∨ s.task ≠ .ended)
    (hasked : ∀ envelope, .event envelope ∈ answers →
      Asked parse labels envelope.channel ∧
        envelope ∈ envelopes.renderAll s.engine.log)
    (hnext : happening = .receive →
      ∃ envelope, s.sent[base + yielded labels]? = some envelope ∧
        (Asked parse labels envelope.channel ∧ answers = [.event envelope] ∨
          ¬ Asked parse labels envelope.channel ∧ answers = [])) :
    ∃ new, Says parse base labels s happening s' new := by
  refine ⟨s.heard answers, houtbox, ?_, fun envelope hmem => ?_,
    fun hreceive hconnected => ?_⟩
  · rintro (hended | hgone)
    · obtain rfl := hrunning.resolve_right (not_not.mpr hended)
      exact ite_self _
    · simp [heard, hgone]
  · unfold heard at hmem
    split at hmem
    · exact hasked envelope hmem
    · cases hmem
  · rw [heard, if_pos hconnected]
    exact hnext hreceive

theorem exists_says_answers (answers : List ServerMsg)
    (houtbox : s'.outbox = s.outbox ++ s.heard answers)
    (hrunning : answers = [] ∨ s.task ≠ .ended)
    (hanswers : ∀ msg ∈ answers, msg.isEvent = false)
    (hidle : happening.isReceive = false) :
    ∃ new, Says parse base labels s happening s' new := by
  refine exists_says answers houtbox hrunning (fun envelope hmem => ?_) ?_
  · cases hanswers _ hmem
  · rintro rfl
    cases hidle

theorem Conversing.says (h : s.Conversing parse base labels)
    (hmove : Move parse crypto s happening s') :
    ∃ new, Says parse base labels s happening s' new := by
  have hsilent : s.outbox = s.outbox ++ s.heard [] := by
    rw [heard, ite_self, List.append_nil]
  have hnext : ∀ {envelope rest}, s.overwritten = false →
      s.receiver = envelope :: rest →
        s.sent[base + yielded labels]? = some envelope := by
    intro envelope rest hintact holdest
    obtain ⟨-, hdrop⟩ := h.onFeed hintact
    rw [holdest] at hdrop
    rw [← List.head?_drop, hdrop]
    rfl
  have hlive : ∀ channel, s.task = .selecting →
      (channel ∈ s.subscriptions ↔ Asked parse labels channel) := by
    intro channel hselecting
    refine h.subscribed.live channel ?_
    rw [hselecting]
    exact (Option.some_ne_none channel).symm
  cases hmove with
  | engine | broadcast | overwrite | hangUp | subscribe | ignore | copy =>
      exact exists_says_answers [] hsilent (.inl rfl) (by simp) rfl
  | leave selecting silent idle asksNothing =>
      exact exists_says_answers [] hsilent (.inl rfl) (by simp) idle
  | @answer raw selecting asksNothing =>
      refine exists_says_answers [replyTo parse raw] rfl
        (.inr (by simp [selecting])) (fun msg hmsg => ?_) rfl
      obtain rfl := List.mem_singleton.mp hmsg
      exact replyTo_isEvent raw
  | goLive selecting parsed | unsubscribe selecting parsed
  | lag selecting parsed =>
      exact exists_says_answers [_] rfl (.inr (by simp [selecting]))
        (by simp [ServerMsg.isEvent, ServerMsg.event?]) rfl
  | finish replaying =>
      exact exists_says_answers [_] rfl (.inr (by simp [replaying]))
        (by simp [ServerMsg.isEvent, ServerMsg.event?]) rfl
  | @forward envelope rest selecting intact oldest subscribed =>
      have hasked := (hlive envelope.channel selecting).mp subscribed
      refine exists_says [.event envelope] rfl (.inr (by simp [selecting]))
        (fun other hmem => ?_) fun _ =>
          ⟨envelope, hnext intact oldest, .inl ⟨hasked, rfl⟩⟩
      obtain rfl := ServerMsg.event.inj (List.mem_singleton.mp hmem)
      exact ⟨hasked, h.sourced.received other (oldest ▸ List.mem_cons_self)⟩
  | @skip envelope rest selecting intact oldest unsubscribed =>
      have hunasked := mt (hlive envelope.channel selecting).mpr unsubscribed
      exact exists_says [] hsilent (.inl rfl) (by simp) fun _ =>
        ⟨envelope, hnext intact oldest, .inr ⟨hunasked, rfl⟩⟩
  | @replay channel envelope rest replaying connected =>
      refine exists_says [.event envelope] rfl (.inr (by simp [replaying]))
        (fun other hmem => ?_) fun hreceive => by cases hreceive
      obtain rfl := ServerMsg.event.inj (List.mem_singleton.mp hmem)
      have hcopied : other ∈ s.task.copy := by
        rw [replaying]
        exact List.mem_cons_self
      obtain ⟨hlogged, hchannel⟩ := h.sourced.copied other hcopied
      exact ⟨h.subscribed.replayed _ hchannel, hlogged⟩

end Run

/--
In every run of a connection, also of one that lags or hangs up, the client
hears one answer to each of its messages, in their order and with the end of a
lagging connection as the last, and all of them as long as it listens, but for
that to a `subscribe` whose replay goes on.  Every event it hears is in the log
and on a channel that it has asked for and not given up since.  The receiver
yields the messages of the feed one after the other without a gap, and the
client hears exactly those it has asked for; once the connection has ended it
hears nothing.
-/
theorem conversation_truthful {crypto : Crypto}
    {parse : String → Except String ClientMsg} {e : Engine}
    {sent : List WsEnvelope} {labels : List Happening} {s : Connection}
    (h : Run (Step parse crypto) (start e sent) labels s) :
    s.Answered parse labels ∧
      ∀ happening s', Step parse crypto s happening s' →
        ∃ new, Says parse sent.length labels s happening s' new := by
  have hconversing := Step.run_conversing h
  exact ⟨hconversing.answered, fun happening s' hstep =>
    hconversing.says (step_move hstep)⟩

end Connection

namespace Sample

/-- The session falls behind after it has heard the bid. -/
def lagging : List Happening :=
  [.client (.text subscribeText), .proceed,
    .engine (.processOrder bid bidEnv), .proceed, .broadcast bidAccepted,
    .proceed, .receive, .client (.text "ping"), .broadcast bidAccepted,
    .overwrite, .reportLag]

theorem conversation_truthful_lagging :
    ∃ s, Run (Connection.Step parseFrame crypto)
        (.start (after [.addMarket market, .processOrder ask askEnv]) [])
        lagging s ∧
      s.task = .ended ∧ s.outbox.length = 5 ∧
      answersIn s.outbox = [.subscribed "book.l3.BTC-USD",
        .error "PARSE_ERROR"
          "could not parse message: expected value at line 1 column 1",
        .disconnected "lagged"] := by
  have hstate : ((Connection.start
      (after [.addMarket market, .processOrder ask askEnv]) []).follow
        parseFrame crypto lagging).map (fun s =>
          (s.connected, s.task, s.outbox.length)) =
      some (true, .ended, 5) := by
    decide +kernel
  obtain ⟨s, hs, hresult⟩ := Option.map_eq_some_iff.mp hstate
  simp only [Prod.mk.injEq] at hresult
  obtain ⟨hconnected, hended, hlength⟩ := hresult
  have hrun := Connection.follow_run hs
  refine ⟨s, hrun, hended, hlength, ?_⟩
  have hanswers :=
    (Connection.conversation_truthful hrun).1.listening hconnected
  rw [hended] at hanswers
  exact (List.append_nil _).symm.trans hanswers

end Sample

end ClobApi
