import ClobApi.Api.Envelope
import ClobApi.Engine.Runs
import Mathlib.Data.Finset.Erase
import Mathlib.Data.Finset.Insert

/-!
# One WebSocket connection

The task of a connection selects between the frames of its client and the
messages of its broadcast receiver.  A `subscribe` with `from_seq` replays the
log first: it copies the matching envelopes under the engine lock, sends them
outside the lock and only then goes live.  The engine and the senders of the
broadcast channel go on meanwhile.
-/

namespace ClobApi

open Foundation

inductive ClientMsg where
  | subscribe (channel : String) (fromSeq : UInt64)
  | unsubscribe (channel : String)
  | ping

inductive ServerMsg where
  | subscribed (channel : String)
  | unsubscribed (channel : String)
  | event (envelope : WsEnvelope)
  | error (code message : String)
  | pong
  | disconnected (reason : String)
  deriving DecidableEq

def ServerMsg.event? : ServerMsg → Option WsEnvelope
  | .event envelope => some envelope
  | _ => none

/-- What `socket.recv()` yields; `close` is also the end of the stream. -/
inductive Frame where
  | text (raw : String)
  | close
  | other
  | error

inductive Task where
  | selecting
  /-- `replay_history` waits for the engine lock -/
  | locking (channel : String) (fromSeq : UInt64)
  /-- `replay_history` sends what it copied -/
  | replaying (channel : String) (envelopes : List WsEnvelope)
  | ended
  deriving DecidableEq

/-- A connection and the server state it reads. -/
structure Connection where
  engine : Engine
  /-- the envelopes sent on the broadcast channel, oldest first -/
  sent : List WsEnvelope
  /-- what the receiver still has to yield -/
  receiver : List WsEnvelope
  /-- the receiver fell behind and lost a message -/
  overwritten : Bool
  /-- `socket.send` succeeds -/
  connected : Bool
  subscriptions : Finset String
  task : Task
  /-- what was sent to the client, oldest first -/
  outbox : List ServerMsg

/-- What happens next, at the server or in the task. -/
inductive Happening where
  | engine (op : Op)
  | broadcast (envelope : WsEnvelope)
  | overwrite
  | hangUp
  | client (frame : Frame)
  | receive
  | reportLag
  | shutDown
  | proceed

def Happening.Unsubscribes (parse : String → Except String ClientMsg)
    (channel : String) : Happening → Prop
  | .client (.text raw) => parse raw = .ok (.unsubscribe channel)
  | _ => False

/-! ## What the client asks, and what it is answered -/

section Client

variable (parse : String → Except String ClientMsg)

def replyTo (raw : String) : ServerMsg :=
  match parse raw with
  | .error e => .error "PARSE_ERROR" ("could not parse message: " ++ e)
  | .ok (.subscribe channel _) => .subscribed channel
  | .ok (.unsubscribe channel) => .unsubscribed channel
  | .ok .ping => .pong

def Happening.reply? : Happening → Option ServerMsg
  | .client (.text raw) => some (replyTo parse raw)
  | .reportLag => some (.disconnected "lagged")
  | _ => none

def Happening.asks? (channel : String) : Happening → Option Bool
  | .client (.text raw) =>
      match parse raw with
      | .ok (.subscribe other _) => if other = channel then some true else none
      | .ok (.unsubscribe other) =>
          if other = channel then some false else none
      | _ => none
  | _ => none

theorem replyTo_event? (raw : String) : (replyTo parse raw).event? = none := by
  unfold replyTo
  split <;> rfl

end Client

def Happening.isReceive : Happening → Bool
  | .receive => true
  | _ => false

namespace Connection

def start (e : Engine) (sent : List WsEnvelope) : Connection where
  engine := e
  sent := sent
  receiver := []
  overwritten := false
  connected := true
  subscriptions := ∅
  task := .selecting
  outbox := []

def send (s : Connection) (msg : ServerMsg) : Connection × Bool :=
  if s.connected then ({ s with outbox := s.outbox ++ [msg] }, true)
  else (s, false)

/-- The end of `Subscribe`: the channel goes live. -/
def goLive (s : Connection) (channel : String) : Connection :=
  let s :=
    { s with
      subscriptions := insert channel s.subscriptions
      task := .selecting }
  (s.send (.subscribed channel)).1

/-- What `replay_history` copies under the engine lock. -/
def history (s : Connection) (channel : String) (fromSeq : UInt64) :
    List WsEnvelope :=
  ((s.engine.log.filter fun se => fromSeq.toNat ≤ se.seqId).flatMap
    WsEnvelope.fromSequenced).filter fun envelope => envelope.channel = channel

section Task

variable (parse : String → Except String ClientMsg)

def handleClientMessage (s : Connection) (raw : String) : Connection :=
  match parse raw with
  | .error e =>
      (s.send (.error "PARSE_ERROR" ("could not parse message: " ++ e))).1
  | .ok (.subscribe channel fromSeq) =>
      if fromSeq > 0 then { s with task := .locking channel fromSeq }
      else s.goLive channel
  | .ok (.unsubscribe channel) =>
      let s := { s with subscriptions := s.subscriptions.erase channel }
      (s.send (.unsubscribed channel)).1
  | .ok .ping => (s.send .pong).1

def handleFrame (s : Connection) : Frame → Connection
  | .text raw => s.handleClientMessage parse raw
  | .close => { s with task := .ended }
  | .other => s
  | .error => { s with task := .ended }

/-- The receiver yields an envelope. -/
def handleEnvelope (s : Connection) (envelope : WsEnvelope) : Connection :=
  if envelope.channel ∈ s.subscriptions then
    match s.send (.event envelope) with
    | (s, true) => s
    | (s, false) => { s with task := .ended }
  else s

/-- The next part of a `subscribe` that replays the log. -/
def proceed (s : Connection) : Option Connection :=
  match s.task with
  | .locking channel fromSeq =>
      some { s with task := .replaying channel (s.history channel fromSeq) }
  | .replaying channel [] => some (s.goLive channel)
  | .replaying channel (envelope :: rest) =>
      match s.send (.event envelope) with
      | (s, true) => some { s with task := .replaying channel rest }
      -- the client disconnected: `replay_history` returns
      | (s, false) => some (s.goLive channel)
  | .selecting | .ended => none

def step (crypto : Crypto) (s : Connection) : Happening → Option Connection
  | .engine op => some { s with engine := (s.engine.apply crypto op).1 }
  | .broadcast envelope =>
      if envelope ∈ envelopes.renderAll s.engine.log then
        some
          { s with
            sent := s.sent ++ [envelope]
            receiver := s.receiver ++ [envelope] }
      else none
  | .overwrite =>
      match s.receiver with
      | [] => none
      | _ :: rest => some { s with receiver := rest, overwritten := true }
  | .hangUp => some { s with connected := false }
  | .client frame =>
      if s.task = .selecting then some (s.handleFrame parse frame) else none
  | .receive =>
      match s.task, s.overwritten, s.receiver with
      | .selecting, false, envelope :: rest =>
          some ({ s with receiver := rest }.handleEnvelope envelope)
      | _, _, _ => none
  | .reportLag =>
      if s.task = .selecting ∧ s.overwritten then
        some { (s.send (.disconnected "lagged")).1 with task := .ended }
      else none
  | .shutDown =>
      if s.task = .selecting then some { s with task := .ended } else none
  | .proceed => s.proceed

def Admits (s : Connection) : Happening → Prop
  | .engine op => s.engine.Admits op
  | _ => True

def Step (crypto : Crypto) (s : Connection) (happening : Happening)
    (s' : Connection) : Prop :=
  s.Admits happening ∧ s.step parse crypto happening = some s'

end Task

/-! ## Every step -/

def heard (s : Connection) (messages : List ServerMsg) : List ServerMsg :=
  if s.connected then messages else []

/-- What a step can do, also to a connection that is closed or lagged. -/
inductive Move (parse : String → Except String ClientMsg) (crypto : Crypto)
    (s : Connection) : Happening → Connection → Prop
  | engine {op : Op} (admits : s.engine.Admits op) :
      Move parse crypto s (.engine op)
        { s with engine := (s.engine.apply crypto op).1 }
  | broadcast {envelope : WsEnvelope}
      (logged : envelope ∈ envelopes.renderAll s.engine.log) :
      Move parse crypto s (.broadcast envelope)
        { s with
          sent := s.sent ++ [envelope]
          receiver := s.receiver ++ [envelope] }
  | overwrite {envelope : WsEnvelope} {rest : List WsEnvelope}
      (oldest : s.receiver = envelope :: rest) :
      Move parse crypto s .overwrite
        { s with receiver := rest, overwritten := true }
  | hangUp : Move parse crypto s .hangUp { s with connected := false }
  | answer {raw : String} (selecting : s.task = .selecting)
      (asksNothing : ∀ channel,
        Happening.asks? parse channel (.client (.text raw)) = none) :
      Move parse crypto s (.client (.text raw))
        { s with outbox := s.outbox ++ s.heard [replyTo parse raw] }
  | subscribe {raw channel : String} {fromSeq : UInt64}
      (selecting : s.task = .selecting)
      (parsed : parse raw = .ok (.subscribe channel fromSeq))
      (positive : 0 < fromSeq) :
      Move parse crypto s (.client (.text raw))
        { s with task := .locking channel fromSeq }
  | goLive {raw channel : String} {fromSeq : UInt64}
      (selecting : s.task = .selecting)
      (parsed : parse raw = .ok (.subscribe channel fromSeq)) :
      Move parse crypto s (.client (.text raw))
        { s with
          subscriptions := insert channel s.subscriptions
          task := .selecting
          outbox := s.outbox ++ s.heard [.subscribed channel] }
  | unsubscribe {raw channel : String} (selecting : s.task = .selecting)
      (parsed : parse raw = .ok (.unsubscribe channel)) :
      Move parse crypto s (.client (.text raw))
        { s with
          subscriptions := s.subscriptions.erase channel
          outbox := s.outbox ++ s.heard [.unsubscribed channel] }
  | ignore (selecting : s.task = .selecting) :
      Move parse crypto s (.client .other) s
  | leave {happening : Happening} (selecting : s.task = .selecting)
      (silent : happening.reply? parse = none)
      (idle : happening.isReceive = false)
      (asksNothing : ∀ channel, happening.asks? parse channel = none) :
      Move parse crypto s happening { s with task := .ended }
  | lag (selecting : s.task = .selecting) (lagged : s.overwritten = true) :
      Move parse crypto s .reportLag
        { s with
          outbox := s.outbox ++ s.heard [.disconnected "lagged"]
          task := .ended }
  | forward {envelope : WsEnvelope} {rest : List WsEnvelope}
      (selecting : s.task = .selecting) (intact : s.overwritten = false)
      (oldest : s.receiver = envelope :: rest)
      (subscribed : envelope.channel ∈ s.subscriptions) :
      Move parse crypto s .receive
        { s with
          receiver := rest
          outbox := s.outbox ++ s.heard [.event envelope]
          task := if s.connected then .selecting else .ended }
  | skip {envelope : WsEnvelope} {rest : List WsEnvelope}
      (selecting : s.task = .selecting) (intact : s.overwritten = false)
      (oldest : s.receiver = envelope :: rest)
      (unsubscribed : envelope.channel ∉ s.subscriptions) :
      Move parse crypto s .receive { s with receiver := rest }
  | copy {channel : String} {fromSeq : UInt64}
      (locking : s.task = .locking channel fromSeq) :
      Move parse crypto s .proceed
        { s with task := .replaying channel (s.history channel fromSeq) }
  | replay {channel : String} {envelope : WsEnvelope} {rest : List WsEnvelope}
      (replaying : s.task = .replaying channel (envelope :: rest))
      (connected : s.connected = true) :
      Move parse crypto s .proceed
        { s with
          task := .replaying channel rest
          outbox := s.outbox ++ s.heard [.event envelope] }
  | finish {channel : String} {copy : List WsEnvelope}
      (replaying : s.task = .replaying channel copy)
      (done : copy = [] ∨ s.connected = false) :
      Move parse crypto s .proceed
        { s with
          subscriptions := insert channel s.subscriptions
          task := .selecting
          outbox := s.outbox ++ s.heard [.subscribed channel] }

section Move

variable {parse : String → Except String ClientMsg} {crypto : Crypto}
  {s s' : Connection} {happening : Happening}

theorem send_eq (s : Connection) (msg : ServerMsg) :
    s.send msg =
      ({ s with outbox := s.outbox ++ s.heard [msg] }, s.connected) := by
  unfold send heard
  split
  · next hconnected => rw [hconnected]
  · next hgone =>
      rw [List.append_nil]
      exact congrArg (Prod.mk s) (Bool.eq_false_iff.mpr hgone).symm

theorem goLive_eq (s : Connection) (channel : String) :
    s.goLive channel =
      { s with
        subscriptions := insert channel s.subscriptions
        task := .selecting
        outbox := s.outbox ++ s.heard [.subscribed channel] } := by
  simp only [goLive, send_eq]
  rfl

theorem handleClientMessage_move (hselecting : s.task = .selecting)
    (raw : String) :
    Move parse crypto s (.client (.text raw))
      (s.handleClientMessage parse raw) := by
  unfold handleClientMessage
  split
  · next e hparse =>
      rw [send_eq]
      have hreply : replyTo parse raw = .error "PARSE_ERROR"
          ("could not parse message: " ++ e) := by
        simp [replyTo, hparse]
      rw [← hreply]
      exact .answer hselecting fun channel => by
        simp [Happening.asks?, hparse]
  · next channel fromSeq hparse =>
      split
      · next hpositive => exact .subscribe hselecting hparse hpositive
      · rw [goLive_eq]
        exact .goLive hselecting hparse
  · next channel hparse =>
      dsimp only
      rw [send_eq]
      exact .unsubscribe hselecting hparse
  · next hparse =>
      rw [send_eq]
      have hreply : replyTo parse raw = .pong := by simp [replyTo, hparse]
      rw [← hreply]
      exact .answer hselecting fun channel => by
        simp [Happening.asks?, hparse]

theorem handleEnvelope_move (hselecting : s.task = .selecting)
    (hintact : s.overwritten = false) {envelope : WsEnvelope}
    {rest : List WsEnvelope} (holdest : s.receiver = envelope :: rest) :
    Move parse crypto s .receive
      ({ s with receiver := rest }.handleEnvelope envelope) := by
  unfold handleEnvelope
  split
  · next hsubscribed =>
      have hmove : Move parse crypto s .receive _ :=
        .forward hselecting hintact holdest hsubscribed
      rw [send_eq]
      cases hconnected : s.connected <;>
        simpa [hconnected, heard, hselecting] using hmove
  · next hunsubscribed =>
      exact .skip hselecting hintact holdest hunsubscribed

theorem proceed_move (h : s.proceed = some s') :
    Move parse crypto s .proceed s' := by
  unfold proceed at h
  split at h
  · next channel fromSeq htask =>
      cases h
      exact .copy htask
  · next channel htask =>
      rw [goLive_eq] at h
      cases h
      exact .finish htask (.inl rfl)
  · next channel envelope rest htask =>
      rw [send_eq] at h
      split at h
      · next s₁ hsend =>
          obtain ⟨rfl, hconnected⟩ := Prod.mk.inj hsend
          cases h
          exact .replay htask hconnected
      · next s₁ hsend =>
          obtain ⟨rfl, hconnected⟩ := Prod.mk.inj hsend
          cases h
          have hmove : Move parse crypto s .proceed _ :=
            .finish htask (.inr hconnected)
          simpa [goLive_eq, heard, hconnected] using hmove
  · cases h
  · cases h

theorem step_move (h : Step parse crypto s happening s') :
    Move parse crypto s happening s' := by
  obtain ⟨hadmits, hstep⟩ := h
  cases happening with
  | engine op =>
      cases hstep
      exact .engine hadmits
  | broadcast envelope =>
      simp only [step] at hstep
      split at hstep
      · next hlogged =>
          cases hstep
          exact .broadcast hlogged
      · cases hstep
  | overwrite =>
      simp only [step] at hstep
      split at hstep
      · cases hstep
      · next envelope rest holdest =>
          cases hstep
          exact .overwrite holdest
  | hangUp =>
      cases hstep
      exact .hangUp
  | client frame =>
      simp only [step] at hstep
      split at hstep
      · next hselecting =>
          cases hstep
          cases frame with
          | text raw => exact handleClientMessage_move hselecting raw
          | other => exact .ignore hselecting
          | close | error => exact .leave hselecting rfl rfl fun _ => rfl
      · cases hstep
  | receive =>
      simp only [step] at hstep
      split at hstep
      · next envelope rest hselecting hintact holdest =>
          cases hstep
          exact handleEnvelope_move hselecting hintact holdest
      · cases hstep
  | reportLag =>
      simp only [step] at hstep
      split at hstep
      · next hlagged =>
          cases hstep
          rw [send_eq]
          exact .lag hlagged.1 hlagged.2
      · cases hstep
  | shutDown =>
      simp only [step] at hstep
      split at hstep
      · next hselecting =>
          cases hstep
          exact .leave hselecting rfl rfl fun _ => rfl
      · cases hstep
  | proceed => exact proceed_move hstep

end Move

/-! ## Live connections -/

structure Alive (s : Connection) : Prop where
  connected : s.connected = true
  intact : s.overwritten = false
  running : s.task ≠ .ended

/-- What a step can do that leaves the connection alive. -/
inductive Turn (parse : String → Except String ClientMsg) (crypto : Crypto)
    (s : Connection) : Happening → Connection → Prop
  | engine {op : Op} (admits : s.engine.Admits op) :
      Turn parse crypto s (.engine op)
        { s with engine := (s.engine.apply crypto op).1 }
  | broadcast {envelope : WsEnvelope}
      (logged : envelope ∈ envelopes.renderAll s.engine.log) :
      Turn parse crypto s (.broadcast envelope)
        { s with
          sent := s.sent ++ [envelope]
          receiver := s.receiver ++ [envelope] }
  | answer {frame : Frame} {answers : List ServerMsg}
      (selecting : s.task = .selecting)
      (noEvent : answers.filterMap ServerMsg.event? = []) :
      Turn parse crypto s (.client frame)
        { s with outbox := s.outbox ++ answers }
  | unsubscribe {raw channel : String} (selecting : s.task = .selecting)
      (parsed : parse raw = .ok (.unsubscribe channel)) :
      Turn parse crypto s (.client (.text raw))
        { s with
          subscriptions := s.subscriptions.erase channel
          outbox := s.outbox ++ [.unsubscribed channel] }
  | subscribe {raw channel : String} {fromSeq : UInt64}
      (selecting : s.task = .selecting)
      (parsed : parse raw = .ok (.subscribe channel fromSeq))
      (positive : 0 < fromSeq) :
      Turn parse crypto s (.client (.text raw))
        { s with task := .locking channel fromSeq }
  | goLive {happening : Happening} {channel : String}
      (ready : s.task = .selecting ∨ s.task = .replaying channel []) :
      Turn parse crypto s happening
        { s with
          subscriptions := insert channel s.subscriptions
          task := .selecting
          outbox := s.outbox ++ [.subscribed channel] }
  | copy {channel : String} {fromSeq : UInt64}
      (locking : s.task = .locking channel fromSeq) :
      Turn parse crypto s .proceed
        { s with task := .replaying channel (s.history channel fromSeq) }
  | replay {channel : String} {envelope : WsEnvelope} {rest : List WsEnvelope}
      (replaying : s.task = .replaying channel (envelope :: rest)) :
      Turn parse crypto s .proceed
        { s with
          task := .replaying channel rest
          outbox := s.outbox ++ [.event envelope] }
  | forward {envelope : WsEnvelope} {rest : List WsEnvelope}
      (selecting : s.task = .selecting)
      (next : s.receiver = envelope :: rest)
      (subscribed : envelope.channel ∈ s.subscriptions) :
      Turn parse crypto s .receive
        { s with
          receiver := rest
          outbox := s.outbox ++ [.event envelope] }
  | skip {envelope : WsEnvelope} {rest : List WsEnvelope}
      (selecting : s.task = .selecting)
      (next : s.receiver = envelope :: rest)
      (unsubscribed : envelope.channel ∉ s.subscriptions) :
      Turn parse crypto s .receive { s with receiver := rest }

section Turn

variable {parse : String → Except String ClientMsg} {crypto : Crypto}
  {s s' : Connection} {happening : Happening}

theorem heard_connected (h : s.connected = true) (messages : List ServerMsg) :
    s.heard messages = messages :=
  if_pos h

theorem Move.alive (h : Move parse crypto s happening s') (halive : s'.Alive) :
    s.Alive := by
  have hrunning : s.task ≠ .ended := by
    cases h with
    | engine | broadcast | answer | unsubscribe | ignore | skip =>
        exact halive.running
    | overwrite => cases halive.intact
    | hangUp => cases halive.connected
    | leave selecting | lag selecting | subscribe selecting
    | goLive selecting | forward selecting =>
        simp [selecting]
    | copy locking => simp [locking]
    | replay replaying | finish replaying => simp [replaying]
  refine ⟨?_, ?_, hrunning⟩
  · cases h with
    | hangUp => cases halive.connected
    | _ => exact halive.connected
  · cases h with
    | overwrite => cases halive.intact
    | _ => exact halive.intact

theorem Move.turn (h : Move parse crypto s happening s') (halive : s'.Alive) :
    Turn parse crypto s happening s' := by
  have hconnected := (h.alive halive).connected
  have hheard := heard_connected hconnected
  cases h with
  | engine admits => exact .engine admits
  | broadcast logged => exact .broadcast logged
  | overwrite => cases halive.intact
  | hangUp => cases halive.connected
  | @answer raw selecting asksNothing =>
      rw [hheard]
      exact .answer selecting (by simp [replyTo_event?])
  | subscribe selecting parsed positive =>
      exact .subscribe selecting parsed positive
  | goLive selecting parsed =>
      rw [hheard]
      exact .goLive (.inl selecting)
  | unsubscribe selecting parsed =>
      rw [hheard]
      exact .unsubscribe selecting parsed
  | ignore selecting =>
      have hturn : Turn parse crypto s (.client .other)
          { s with outbox := s.outbox ++ [] } := .answer selecting rfl
      rwa [List.append_nil] at hturn
  | leave | lag => exact absurd rfl halive.running
  | forward selecting intact oldest subscribed =>
      rw [hheard, if_pos hconnected, ← selecting]
      exact .forward selecting oldest subscribed
  | skip selecting intact oldest unsubscribed =>
      exact .skip selecting oldest unsubscribed
  | copy locking => exact .copy locking
  | replay replaying connected =>
      rw [hheard]
      exact .replay replaying
  | finish replaying done =>
      rw [hheard]
      obtain rfl | hgone := done
      · exact .goLive (.inr replaying)
      · rw [hconnected] at hgone
        cases hgone

theorem Step.run_turn {init : Connection} {labels : List Happening}
    (h : Run (Step parse crypto) init labels s) (halive : s.Alive) :
    init.Alive ∧ Run (Turn parse crypto) init labels s := by
  induction h with
  | start => exact ⟨halive, .start⟩
  | next _ hstep ih =>
      have hmove := step_move hstep
      obtain ⟨hinit, hrun⟩ := ih (hmove.alive halive)
      exact ⟨hinit, hrun.next (hmove.turn halive)⟩

theorem Turn.outbox (h : Turn parse crypto s happening s') :
    s.outbox <+: s'.outbox := by
  cases h with
  | engine | broadcast | subscribe | copy | skip => exact List.prefix_refl _
  | _ => exact List.prefix_append _ _

theorem subscribe_locks {raw channel : String} {fromSeq : UInt64}
    (h : Step parse crypto s (.client (.text raw)) s')
    (hparse : parse raw = .ok (.subscribe channel fromSeq))
    (hpositive : 0 < fromSeq) :
    s' = { s with task := .locking channel fromSeq } := by
  have hstep := h.2
  simp only [step] at hstep
  split at hstep
  · cases hstep
    simp [handleFrame, handleClientMessage, hparse, hpositive]
  · cases hstep

end Turn

end Connection

end ClobApi
