import ClobApi.Api.Service
import ClobApi.Engine.BooksPresent
import ClobApi.Foundation.Countdown
import Mathlib.Data.Prod.Lex

/-!
# Every request is answered

A handler that holds the engine lock can always go on, and every step brings its
handler closer to the end.  So however the handlers take turns, each request is
answered after finitely many steps.
-/

namespace ClobApi

open Foundation

/-! ## The holder of the lock -/

def Phase.holdsLock : Phase → Bool
  | .reading | .locked _ | .publishing _ .copying
  | .persisting _ .copying => true
  | _ => false

namespace Server

variable {crypto : Crypto} {s s' : Server} {i : Nat}

def LockHeld (s : Server) : Prop :=
  ∀ i, (s.handlers i).holdsLock = true ↔ s.lock = some i

theorem LockHeld.acquire (h : s.LockHeld) (hfree : s.lock = none)
    {phase : Phase} (hphase : phase.holdsLock = true) :
    (s.acquire i phase).LockHeld := by
  intro j
  by_cases hj : j = i
  · subst hj
    simp [Server.acquire, Server.move, hphase]
  · have hother : ¬ (s.handlers j).holdsLock = true := by
      rw [h j, hfree]
      nofun
    simp [Server.acquire, Server.move, hj, hother, Ne.symm hj]

theorem LockHeld.release (h : s.LockHeld)
    (hholds : (s.handlers i).holdsLock = true) {phase : Phase}
    (hphase : phase.holdsLock = false) : (s.release i phase).LockHeld := by
  intro j
  by_cases hj : j = i
  · subst hj
    simp [Server.release, Server.move, hphase]
  · have hother : ¬ (s.handlers j).holdsLock = true := by
      rw [h j, (h i).mp hholds, Option.some.injEq]
      exact Ne.symm hj
    simp [Server.release, Server.move, hj, hother]

theorem LockHeld.move (h : s.LockHeld)
    (hbefore : (s.handlers i).holdsLock = false) {phase : Phase}
    (hphase : phase.holdsLock = false) : (s.move i phase).LockHeld := by
  intro j
  by_cases hj : j = i
  · subst hj
    have hfree := h j
    rw [hbefore] at hfree
    simpa [Server.move, hphase] using hfree
  · simpa [Server.move, hj] using h j

theorem Move.lockHeld {action : Action} (h : s.Move crypto i action s')
    (hlock : s.LockHeld) : s'.LockHeld := by
  cases h with
  | lock request phase free => exact hlock.acquire free rfl
  | read phase free => exact hlock.acquire free rfl
  | unlock phase => exact hlock.release (by rw [phase]; rfl) rfl
  | @call request phase =>
      have hholds : (s.handlers i).holdsLock = true := by rw [phase]; rfl
      unfold callEngine
      rcases request.call crypto s.engine with ⟨e, _ | seqBefore⟩
      · exact LockHeld.release (s := { s with engine := e }) hlock hholds rfl
      · exact LockHeld.release (s := { s with engine := e }) hlock hholds rfl
  | tryPublish phase free => exact hlock.acquire free rfl
  | collect phase => exact hlock.release (by rw [phase]; rfl) rfl
  | tryPersist phase free => exact hlock.acquire free rfl
  | copy phase => exact hlock.release (by rw [phase]; rfl) rfl
  | skipPublish phase held | published phase | skipPersist phase held
  | rollback phase => exact hlock.move (by rw [phase]; rfl) rfl
  | send phase => exact hlock.move (by rw [phase]; rfl) rfl
  | commit phase => exact hlock.move (by rw [phase]; rfl) rfl

end Server

/-! ## The way to the answer -/

/-- The stages left, then the envelopes still to send. -/
def Phase.rank : Phase → ℕ ×ₗ ℕ
  | .publishing _ .entry => toLex (9, 0)
  | .publishing _ .copying => toLex (8, 0)
  | .publishing _ (.copied envelopes) => toLex (7, envelopes.length)
  | .persisting _ .entry => toLex (6, 0)
  | .persisting _ .copying => toLex (5, 0)
  | .persisting _ (.copied _) => toLex (4, 0)
  | .idle | .reading | .locked _ | .finished => toLex (0, 0)

def Serving.rank : Serving → Phase → ℕ ×ₗ ℕ
  | .entered .., .idle => toLex (12, 0)
  | .entered .., _ => toLex (11, 0)
  | .traded .., _ => toLex (10, 0)
  | .ended .., phase => phase.rank
  | .idle, _ | .turnedAway .., _ => toLex (0, 0)

theorem Phase.rank_lt (phase : Phase) {n : ℕ} (hn : 9 < n) :
    phase.rank < toLex (n, 0) := by
  cases phase with
  | publishing seqBefore stage | persisting seqBefore stage =>
      cases stage <;> exact Prod.Lex.toLex_lt_toLex.mpr (.inl (by omega))
  | _ => exact Prod.Lex.toLex_lt_toLex.mpr (.inl (by omega))

theorem Serving.afterWork_rank_lt (http : HttpRequest) (verdict : Verdict)
    (phase : Phase) :
    (Serving.afterWork http verdict).rank phase < toLex (11, 0) := by
  cases verdict with
  | ordered result =>
      unfold Serving.afterWork
      dsimp only
      split
      · exact phase.rank_lt (by omega)
      · exact Prod.Lex.toLex_lt_toLex.mpr (.inl (by omega))
  | _ => exact phase.rank_lt (by omega)

theorem Serving.rank_entered (http : HttpRequest) (work : Work) {phase : Phase}
    (h : phase ≠ .idle) :
    (Serving.entered http work).rank phase = toLex (11, 0) := by
  cases phase with
  | idle => exact absurd rfl h
  | _ => rfl

theorem Server.step_rank_lt {crypto : Crypto} {s s' : Server} {i : Nat}
    {action : Action} (h : s.step crypto i action = some s')
    (hcalled : (s.handlers i).isCalled = true) :
    (s'.handlers i).rank < (s.handlers i).rank := by
  cases Server.step_move h with
  | lock request phase free | read phase free | unlock phase | call phase =>
      simp [phase, Phase.isCalled] at hcalled
  | _ phase =>
      simp [phase, Server.move, Server.acquire, Server.release, Phase.rank,
        Prod.Lex.toLex_lt_toLex]

namespace Service

variable {crypto : Crypto} {s s' : Service} {i : Nat}

def rank (s : Service) (i : Nat) : ℕ ×ₗ ℕ :=
  (s.servings i).rank (s.server.handlers i)

structure OwnStep (crypto : Crypto) (s : Service) (label : Nat × ServiceAction)
    (s' : Service) : Prop where
  own : ∀ request, label.2 ≠ .receive request
  step : s.step crypto label.1 label.2 = some s'

theorem Move.rank_lt {action : ServiceAction} (h : s.Move crypto i action s')
    (hown : ∀ request, action ≠ .receive request) (hfits : s.Fits) :
    s'.rank i < s.rank i := by
  have hi := hfits i
  unfold rank
  cases h with
  | turnAway serving refused | enter serving admitted =>
      exact absurd rfl (hown _)
  | lock serving waits stepped =>
      obtain ⟨-, rfl⟩ := step_lock stepped
      simp only [withServer, serving, waits, Server.acquire, Server.move,
        Function.update_self]
      rw [Serving.rank_entered _ _ (Work.locked_ne_idle _)]
      exact Prod.Lex.toLex_lt_toLex.mpr (.inl (by omega))
  | work serving holds stepped =>
      simp only [move, withServer, Function.update_self, serving]
      rw [Serving.rank_entered _ _ holds]
      exact Serving.afterWork_rank_lt _ _ _
  | update serving =>
      rw [serving] at hi ⊢
      simp only [move, withRisk, Function.update_self]
      exact Phase.rank_lt _ (by omega)
  | deliver serving stepped | rollback serving stepped =>
      rw [serving] at hi ⊢
      simp only [withServer, serving]
      exact Server.step_rank_lt stepped hi

theorem countsDown (crypto : Crypto) :
    CountsDown (fun s label s' => s.Fits ∧ OwnStep crypto s label s')
      Service.rank where
  frame := by
    rintro s label s' ⟨-, hstep⟩ i hi
    have hmove := step_move hstep.step
    unfold rank
    rw [hmove.servings_of_ne hi, hmove.handlers_of_ne hi]
  lower := by
    rintro s ⟨i, action⟩ s' ⟨hfits, hown, hstep⟩
    exact (step_move hstep).rank_lt hown hfits

theorem OwnStep.begun {label : Nat × ServiceAction}
    (h : OwnStep crypto s label s') : s.servings label.1 ≠ .idle := by
  obtain ⟨i, action⟩ := label
  intro hidle
  cases step_move h.step with
  | turnAway serving refused | enter serving admitted => exact h.own _ rfl
  | lock serving _ _ | work serving _ _ | update serving
  | deliver serving _ | rollback serving _ =>
      rw [hidle] at serving
      cases serving

/-! ## Nobody waits forever -/

def answer (s : Service) (i : Nat) : Option HttpResponse :=
  match s.servings i, s.server.handlers i with
  | .turnedAway _ response, _ => some response
  | .ended _ response, .finished => response
  | _, _ => none

def Busy (s : Service) (i : Nat) : Prop :=
  match s.servings i, s.server.handlers i with
  | .idle, _ | .turnedAway .., _ | .ended .., .finished => False
  | _, _ => True

theorem can_lock (crypto : Crypto) (work : Work) {server : Server}
    (hidle : server.handlers i = .idle) (hfree : server.lock = none) :
    ∃ server', server.step crypto i work.lock = some server' := by
  cases work <;>
    exact ⟨_, by simp only [Work.lock, Server.step, hidle, hfree]; rfl⟩

theorem can_work (crypto : Crypto) (work : Work) {server : Server}
    (hlocked : server.handlers i = work.locked) :
    ∃ server', server.step crypto i .proceed = some server' := by
  cases work <;>
    exact ⟨_, by simp only [Server.step, hlocked, Work.locked]; rfl⟩

theorem can_deliver (crypto : Crypto) {server : Server}
    (hcalled : (server.handlers i).isCalled = true)
    (hleft : server.handlers i ≠ .finished) :
    ∃ server', server.step crypto i .proceed = some server' := by
  unfold Server.step
  cases hphase : server.handlers i with
  | idle | reading | locked request => simp [hphase, Phase.isCalled] at hcalled
  | finished => exact absurd hphase hleft
  | publishing seqBefore stage =>
      cases stage with
      | entry => cases server.lock <;> exact ⟨_, rfl⟩
      | copying => exact ⟨_, rfl⟩
      | copied envelopes => cases envelopes <;> exact ⟨_, rfl⟩
  | persisting seqBefore stage =>
      cases stage with
      | entry => cases server.lock <;> exact ⟨_, rfl⟩
      | copying => exact ⟨_, rfl⟩
      | copied events => exact ⟨_, rfl⟩

theorem Fits.can_proceed (h : s.Fits) (hbusy : s.Busy i)
    (hlock : s.server.lock = none ∨ (s.server.handlers i).holdsLock = true) :
    ∃ s', s.step crypto i .proceed = some s' := by
  have hi := h i
  unfold Busy at hbusy
  cases hserving : s.servings i with
  | idle => simp [hserving] at hbusy
  | turnedAway request response => simp [hserving] at hbusy
  | entered request work =>
      rw [hserving] at hi
      by_cases hidle : s.server.handlers i = .idle
      · have hfree := hlock.resolve_right (by rw [hidle]; nofun)
        obtain ⟨server, hserver⟩ := can_lock crypto work hidle hfree
        exact ⟨_, by simp only [Service.step, hserving, hidle, hserver]; rfl⟩
      · obtain ⟨server, hserver⟩ :=
          can_work crypto work (hi.2.resolve_left hidle)
        refine ⟨(s.withServer server).move i
          (.afterWork request (work.perform crypto s.server.engine).2), ?_⟩
        simp only [Service.step, hserving]
        rw [hserver]
        rfl
  | traded request result =>
      exact ⟨_, by simp only [Service.step, hserving]; rfl⟩
  | ended request response =>
      rw [hserving] at hi
      have hleft : s.server.handlers i ≠ .finished := by
        intro hfinished
        simp [hserving, hfinished] at hbusy
      obtain ⟨server, hserver⟩ := can_deliver crypto hi hleft
      exact ⟨_, by simp only [Service.step, hserving, hserver]; rfl⟩

/-- Where a handler is busy, it or the holder of the lock can go on. -/
theorem exists_step (crypto : Crypto) (hfits : s.Fits)
    (hlock : s.server.LockHeld)
    (hbusy : s.Busy i) : ∃ j s', s.step crypto j .proceed = some s' := by
  cases hholder : s.server.lock with
  | none => exact ⟨i, hfits.can_proceed hbusy (.inl hholder)⟩
  | some j =>
      have hholds := (hlock j).mpr hholder
      have hbusy' : s.Busy j := by
        have hj := hfits j
        unfold Busy
        cases hserving : s.servings j with
        | idle | turnedAway request response =>
            rw [hserving] at hj
            simp [show s.server.handlers j = .idle from hj,
              Phase.holdsLock] at hholds
        | entered request work | traded request result => trivial
        | ended request response =>
            cases hphase : s.server.handlers j <;>
              simp_all [Phase.holdsLock]
      exact ⟨j, hfits.can_proceed hbusy' (.inr hholds)⟩

theorem step_lockHeld {action : ServiceAction}
    (h : s.step crypto i action = some s') (hlock : s.server.LockHeld) :
    s'.server.LockHeld := by
  cases step_move h with
  | turnAway serving refused | enter serving admitted | update serving =>
      exact hlock
  | lock serving _ stepped | work serving _ stepped | deliver serving stepped
  | rollback serving stepped =>
      exact (Server.step_move stepped).lockHeld hlock

end Service

/-! ## Nobody panics -/

theorem Request.perform_present {e : Engine} (h : e.BooksPresent)
    (crypto : Crypto) (request : Request) :
    (request.perform crypto e).1.BooksPresent ∧
      (request.perform crypto e).2 ≠ .panicked := by
  have hcancel : ∀ orderId traderId wall,
      (e.processCancel orderId traderId wall).1.BooksPresent ∧
        Verdict.ofCancel (e.processCancel orderId traderId wall).2 ≠
          .panicked := by
    intro orderId traderId wall
    obtain ⟨hbooks, hcalm⟩ := processCancel_present h orderId traderId wall
    refine ⟨hbooks, ?_⟩
    cases hanswer : (e.processCancel orderId traderId wall).2 with
    | panic => exact absurd hanswer hcalm
    | _ => simp [Verdict.ofCancel]
  have hadmin : ∀ (body : Nat → Body) answer,
      Verdict.ofAdmin body answer ≠ .panicked := by
    intro body answer
    cases answer <;> simp [Verdict.ofAdmin]
  cases request with
  | postOrder signed env =>
      obtain ⟨hbooks, hcalm⟩ := processOrder_present h crypto signed env
      refine ⟨hbooks, ?_⟩
      simp only [perform]
      cases houtcome : (e.processOrder crypto signed env).2 with
      | panic => exact absurd houtcome hcalm
      | _ => simp [Verdict.ofOrder]
  | deleteOrder orderId traderId wall => exact hcancel orderId traderId wall
  | cancelByClientId traderId clientOrderId wall =>
      simp only [perform]
      split
      · exact ⟨h, by simp⟩
      · exact hcancel _ traderId wall
  | adminPauseMarket marketId triggeredBy wall =>
      exact ⟨switchMarket_present h marketId _ _ _ wall, hadmin _ _⟩
  | adminResumeMarket marketId triggeredBy wall =>
      exact ⟨switchMarket_present h marketId _ _ _ wall, hadmin _ _⟩
  | adminCancelAll marketId wall =>
      exact ⟨cancelAllOrders_present h marketId wall, hadmin _ _⟩

theorem Work.perform_present {e : Engine} (h : e.BooksPresent)
    (crypto : Crypto) (work : Work) :
    (work.perform crypto e).1.BooksPresent ∧
      (work.perform crypto e).2 ≠ .panicked := by
  have hread : ∀ {α : Type} (body : α → Body) answer,
      Verdict.ofRead body answer ≠ .panicked := by
    intro α body answer
    cases answer <;> simp [Verdict.ofRead]
  cases work with
  | call request => exact request.perform_present h crypto
  | listMarkets => exact ⟨h, by simp [perform]⟩
  | _ => exact ⟨h, hread _ _⟩

namespace Service

variable {crypto : Crypto} {s s' : Service} {i : Nat}

structure Calm (s : Service) : Prop where
  books : s.server.engine.BooksPresent
  responds : ∀ i http, s.servings i ≠ .ended http none

theorem Calm.step {action : ServiceAction} (h : s.Calm) (hfits : s.Fits)
    (hstep : s.step crypto i action = some s') : s'.Calm := by
  have hmove := step_move hstep
  have heffect := hmove.effect hfits
  have hothers : ∀ j, j ≠ i → ∀ http, s'.servings j ≠ .ended http none := by
    intro j hj http
    rw [hmove.servings_of_ne hj]
    exact h.responds j http
  have hown : s'.server.engine.BooksPresent ∧
      ∀ http, s'.servings i ≠ .ended http none := by
    generalize s'.server.engine = engine', s'.servings i = serving',
      s'.risk = risk' at heffect ⊢
    cases heffect with
    | turnAway serving refused => exact ⟨h.books, nofun⟩
    | enter serving admitted => exact ⟨h.books, nofun⟩
    | update serving => exact ⟨h.books, nofun⟩
    | rest => exact ⟨h.books, h.responds i⟩
    | @work request work serving locked =>
        obtain ⟨hbooks, hcalm⟩ := work.perform_present h.books crypto
        refine ⟨hbooks, fun http => ?_⟩
        cases hverdict : (work.perform crypto s.server.engine).2 with
        | panicked => exact absurd hverdict hcalm
        | ordered result =>
            unfold Serving.afterWork
            dsimp only
            split <;> simp
        | _ => simp [Serving.afterWork]
  refine ⟨hown.1, fun j http => ?_⟩
  by_cases hj : j = i
  · subst hj
    exact hown.2 http
  · exact hothers j hj http

/-! ## Runs -/

structure Answering (S : Finset Nat) (s : Service) : Prop where
  fits : s.Fits
  lock : s.server.LockHeld
  calm : s.Calm
  begun : ∀ i, i ∉ S → s.servings i = .idle

theorem Answering.step {S : Finset Nat} {label : Nat × ServiceAction}
    (h : s.Answering S) (hstep : OwnStep crypto s label s') :
    label.1 ∈ S ∧ s'.Answering S := by
  have hlabel : label.1 ∈ S := by
    by_contra hout
    exact hstep.begun (h.begun _ hout)
  refine ⟨hlabel, h.fits.step hstep.step, step_lockHeld hstep.step h.lock,
    h.calm.step h.fits hstep.step, fun i hi => ?_⟩
  have hother : i ≠ label.1 := by
    rintro rfl
    exact hi hlabel
  rw [(step_move hstep.step).servings_of_ne hother]
  exact h.begun i hi

theorem Answering.run {S : Finset Nat} {labels : List (Nat × ServiceAction)}
    (h : s.Answering S) (hrun : Run (OwnStep crypto) s labels s') :
    s'.Answering S :=
  hrun.invariant h fun _ _ _ hs hstep => (hs.step hstep).2

theorem Step.run_answering {e : Engine} (hbooks : e.BooksPresent)
    {risk : RiskChecker} {adminKey : String}
    {labels : List (Nat × ServiceAction)}
    (h : Run (Step crypto) (start e risk adminKey) labels s) :
    ∃ S, s.Answering S := by
  induction h with
  | start =>
      refine ⟨∅, start_fits e risk adminKey, fun i => ?_, ⟨hbooks, nofun⟩,
        fun _ _ => rfl⟩
      simp [start, Server.start, Phase.holdsLock]
  | @next labels s label s' hrun hstep ih =>
      obtain ⟨S, hS⟩ := ih
      refine ⟨insert label.1 S, hS.fits.step hstep.2,
        step_lockHeld hstep.2 hS.lock, hS.calm.step hS.fits hstep.2,
        fun i hi => ?_⟩
      rw [Finset.mem_insert, not_or] at hi
      rw [(step_move hstep.2).servings_of_ne hi.1]
      exact hS.begun i hi.2

theorem Answering.answered {S : Finset Nat} (h : s.Answering S)
    (hend : ∀ i, s.step crypto i .proceed = none)
    (hbegun : s.servings i ≠ .idle) :
    ∃ response, s.answer i = some response := by
  have hleft : ¬ s.Busy i := by
    intro hbusy
    obtain ⟨j, s', hstep⟩ := exists_step crypto h.fits h.lock hbusy
    rw [hend j] at hstep
    cases hstep
  have hi := h.fits i
  unfold Busy at hleft
  unfold answer
  cases hserving : s.servings i with
  | idle => exact absurd hserving hbegun
  | turnedAway request response => exact ⟨response, rfl⟩
  | entered request work => simp [hserving] at hleft
  | traded request result => simp [hserving] at hleft
  | ended request response =>
      cases hphase : s.server.handlers i with
      | finished =>
          cases response with
          | none => exact absurd hserving (h.calm.responds i request)
          | some response => exact ⟨response, rfl⟩
      | _ => simp [hserving, hphase] at hleft

end Service

/--
In every reachable state of a server that has a book for each registered market:
without new requests the handlers cannot take turns forever, where none of them
can go on each request that has arrived has its response, and such a state can
be reached.  So there is no deadlock, no livelock and no panic.
-/
theorem requests_answered {crypto : Crypto} {e : Engine}
    (hbooks : e.BooksPresent) {risk : RiskChecker} {adminKey : String}
    {s : Service} {labels : List (Nat × ServiceAction)}
    (h : Run (Service.Step crypto) (.start e risk adminKey) labels s) :
    (¬ ∃ states : ℕ → Service, states 0 = s ∧
        ∀ n, ∃ label, (states n).OwnStep crypto label (states (n + 1))) ∧
      (∀ labels' s', Run (Service.OwnStep crypto) s labels' s' →
        (∀ i, s'.step crypto i .proceed = none) →
        ∀ i, s'.servings i ≠ .idle →
          ∃ response, s'.answer i = some response) ∧
      ∃ labels' s', Run (Service.OwnStep crypto) s labels' s' ∧
        ∀ i, s'.servings i ≠ .idle →
          ∃ response, s'.answer i = some response := by
  obtain ⟨S, hS⟩ := Service.Step.run_answering hbooks h
  refine ⟨?_, ?_, ?_⟩
  · rintro ⟨states, rfl, hsteps⟩
    have hstates : ∀ n, (states n).Answering S := by
      intro n
      induction n with
      | zero => exact hS
      | succ n ih =>
          obtain ⟨label, hstep⟩ := hsteps n
          exact (ih.step hstep).2
    refine (Service.countsDown crypto).finite S states fun n => ?_
    obtain ⟨label, hstep⟩ := hsteps n
    exact ⟨label, ((hstates n).step hstep).1, (hstates n).fits, hstep⟩
  · intro labels' s' hrun hend i hbegun
    exact (hS.run hrun).answered hend hbegun
  · obtain ⟨labels', s', -, hrun, hend⟩ :=
      (Service.countsDown crypto).exists_end S s
    have hown := hrun.mono fun _ _ _ hstep => hstep.2
    have hS' := hS.run hown
    have hstop : ∀ j, s'.step crypto j .proceed = none := by
      intro j
      by_contra hsome
      obtain ⟨s'', hs''⟩ := Option.ne_none_iff_exists'.mp hsome
      have hstep : Service.OwnStep crypto s' (j, .proceed) s'' := ⟨nofun, hs''⟩
      exact hend _ (hS'.step hstep).1 s'' ⟨hS'.fits, hstep⟩
    exact ⟨labels', s', hown, fun i hbegun => hS'.answered hstop hbegun⟩

theorem requests_answered_interleaved :
    ∃ s, Run (Service.Step Sample.crypto) Sample.openService
        Sample.interleaved s ∧
      (s.servings 0 ≠ .idle ∧ s.answer 0 = none) ∧
      ∃ labels' s', Run (Service.OwnStep Sample.crypto) s labels' s' ∧
        ∀ i, s'.servings i ≠ .idle →
          ∃ response, s'.answer i = some response := by
  have hstate : (Sample.openService.runAll Sample.crypto
      Sample.interleaved).map (fun s =>
        ((s.answer 0).isSome, (s.servings 0).isIdle)) =
          some (false, false) := by
    decide +kernel
  obtain ⟨s, hs, hzero⟩ := Option.map_eq_some_iff.mp hstate
  obtain ⟨hanswer, hserving⟩ := Prod.mk.inj hzero
  have hrun := Service.runAll_run hs
  have hbooks : (Sample.after [.addMarket Sample.market]).BooksPresent :=
    addMarket_present Engine.new_present _
  refine ⟨s, hrun, ⟨fun hidle => ?_, by simpa using hanswer⟩,
    (requests_answered hbooks hrun).2.2⟩
  simp [hidle, Serving.isIdle] at hserving

end ClobApi
