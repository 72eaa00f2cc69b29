import ClobApi.Foundation.Linear
import ClobApi.Guarantees.Confirmations

/-!
# One request after the other

The handlers of the REST server run side by side, and yet the engine and the
responses are those of a server that takes one request at a time.
-/

namespace ClobApi

open Foundation

/-- The handler with the engine to itself, past the risk checker. -/
def HttpRequest.handle (crypto : Crypto) (adminKey : String) (e : Engine)
    (http : HttpRequest) : Engine × Option HttpResponse :=
  match http.work adminKey with
  | .error response => (e, some response)
  | .ok work =>
      let (e', verdict) := work.perform crypto e
      (e', verdict.response?)

/-- The request that has had the engine, and its response unless it panicked. -/
def Serving.worked : Serving → Option (HttpRequest × Option HttpResponse)
  | .idle | .turnedAway .. | .entered .. => none
  | .traded request result => some (request, some result.toResponse)
  | .ended request response => some (request, response)

theorem Serving.worked_afterWork (request : HttpRequest) (verdict : Verdict) :
    (Serving.afterWork request verdict).worked =
      some (request, verdict.response?) := by
  cases verdict with
  | ordered result =>
      unfold Serving.afterWork
      dsimp only
      split <;> rfl
  | _ => rfl

namespace Service

variable {crypto : Crypto} {s s' : Service}

def worked (s : Service) (i : Nat) :
    Option (HttpRequest × Option HttpResponse) :=
  (s.servings i).worked

theorem Effect.atomic {i : Nat} {e' : Engine} {serving : Serving}
    {risk : RiskChecker} (h : Effect crypto s i e' serving risk)
    (hfits : (s.servings i).Fits s.adminKey (s.server.handlers i)) :
    Atomic (HttpRequest.handle crypto s.adminKey) s.server.engine (s.worked i)
      e' serving.worked := by
  unfold worked
  cases h with
  | turnAway idle refused | enter idle admitted =>
      rw [idle]
      exact .silent
  | @work request work entered locked =>
      rw [entered] at hfits ⊢
      have hhandle : request.handle crypto s.adminKey s.server.engine =
          ((work.perform crypto s.server.engine).1,
            (work.perform crypto s.server.engine).2.response?) := by
        rw [HttpRequest.handle, hfits.1]
      rw [Serving.worked_afterWork]
      have hworks : Atomic (HttpRequest.handle crypto s.adminKey)
          s.server.engine none _ _ := .works request rfl
      rwa [hhandle] at hworks
  | update traded =>
      rw [traded]
      exact .silent
  | rest => exact .silent

theorem Step.atomic {label : Nat × ServiceAction} (hfits : s.Fits)
    (h : Step crypto s label s') :
    Atomic (HttpRequest.handle crypto s.adminKey) s.server.engine
      (s.worked label.1) s'.server.engine (s'.worked label.1) :=
  ((step_move h.2).effect hfits).atomic (hfits label.1)

theorem Step.worked_of_ne {label : Nat × ServiceAction}
    (h : Step crypto s label s') (i : Nat) (hi : i ≠ label.1) :
    s'.worked i = s.worked i :=
  congrArg Serving.worked ((step_move h.2).servings_of_ne hi)

theorem Step.run_linearizes {adminKey : String} {e : Engine}
    {labels : List (Nat × ServiceAction)} {order : List (Nat × HttpRequest)}
    (hfits : s.Fits) (hkey : s.adminKey = adminKey)
    (horder : Linearizes (HttpRequest.handle crypto adminKey) e s.server.engine
      s.worked order)
    (h : Run (Step crypto) s labels s') :
    ∃ later, Linearizes (HttpRequest.handle crypto adminKey) e s'.server.engine
      s'.worked (order ++ later) := by
  have hinv : ∀ s label s', s.Fits ∧ s.adminKey = adminKey →
      Step crypto s label s' → s'.Fits ∧ s'.adminKey = adminKey := by
    rintro s label s' ⟨hfits, hkey⟩ hstep
    exact ⟨hfits.step hstep.2, (step_move hstep.2).adminKey.trans hkey⟩
  have hatomic : ∀ s label s', s.Fits ∧ s.adminKey = adminKey →
      Step crypto s label s' →
      Atomic (HttpRequest.handle crypto adminKey) s.server.engine
        (s.worked label.1) s'.server.engine (s'.worked label.1) := by
    rintro s label s' ⟨hfits, rfl⟩ hstep
    exact Step.atomic hfits hstep
  exact Run.linearizes hinv hatomic (fun _ _ _ => Step.worked_of_ne)
    ⟨hfits, hkey⟩ horder h

end Service

/--
The REST server is linearizable.  The engine and the responses of all requests
that have had it are those of the same requests one after the other, each in its
turn alone with the engine.  Going on only adds requests at the end of that
order, so a request received after another one was answered comes after it.
-/
theorem requests_linearize {crypto : Crypto} {e : Engine} {risk : RiskChecker}
    {adminKey : String} {s s' : Service}
    {labels labels' : List (Nat × ServiceAction)}
    (h : Run (Service.Step crypto) (.start e risk adminKey) labels s)
    (h' : Run (Service.Step crypto) s labels' s') :
    ∃ order later,
      Linearizes (HttpRequest.handle crypto adminKey) e s.server.engine
        s.worked order ∧
      Linearizes (HttpRequest.handle crypto adminKey) e s'.server.engine
        s'.worked (order ++ later) ∧
      ∀ i j http response, s.servings i = .ended http response →
        s.servings j = .idle → (s'.worked j).isSome = true →
        [i, j].Sublist ((order ++ later).map Prod.fst) := by
  obtain ⟨order, horder⟩ := Service.Step.run_linearizes
    (Service.start_fits e risk adminKey) rfl (.nil fun _ => rfl) h
  obtain ⟨later, hlater⟩ := Service.Step.run_linearizes
    (Service.Step.run_fits h) (Service.Step.run_adminKey h) horder h'
  refine ⟨order, later, horder, hlater,
    fun i j http response hended hidle hworked => ?_⟩
  refine horder.precedes hlater ?_ ?_ hworked
  · simp only [Service.worked, hended, Serving.worked, Option.isSome_some]
  · simp only [Service.worked, hidle, Serving.worked]

namespace Sample

def resumed : List (Nat × ServiceAction) :=
  (5, .receive (.adminResumeMarket (some "key") "BTC-USD" "ops" wall)) ::
    serves 5 2

end Sample

theorem Serving.eq_idle {serving : Serving} (h : serving.isIdle = true) :
    serving = .idle := by
  cases serving with
  | idle => rfl
  | _ => cases h

theorem requests_linearize_interleaved :
    ∃ s s' order later,
      Run (Service.Step Sample.crypto) Sample.openService Sample.interleaved s ∧
      Run (Service.Step Sample.crypto) s Sample.resumed s' ∧
      Linearizes (HttpRequest.handle Sample.crypto "key")
        Sample.openService.server.engine s'.server.engine s'.worked
        (order ++ later) ∧
      [0, 5].Sublist ((order ++ later).map Prod.fst) := by
  have hstate : (Sample.openService.runAll Sample.crypto
      Sample.interleaved).map (fun s => ((s.servings 0).ended?.isSome,
        (s.servings 5).isIdle, (s.runAll Sample.crypto Sample.resumed).map
          fun s' => (s'.worked 5).isSome)) =
        some (true, true, some true) := by
    decide +kernel
  obtain ⟨s, hs, hseen⟩ := Option.map_eq_some_iff.mp hstate
  obtain ⟨hended, hrest⟩ := Prod.mk.inj hseen
  obtain ⟨hidle, hresumed⟩ := Prod.mk.inj hrest
  obtain ⟨s', hs', hworked⟩ := Option.map_eq_some_iff.mp hresumed
  obtain ⟨⟨mutating, response⟩, hsome⟩ := Option.isSome_iff_exists.mp hended
  obtain ⟨http, hserving, -⟩ := Serving.ended?_eq_some hsome
  have hrun := Service.runAll_run hs
  have hrun' := Service.runAll_run hs'
  obtain ⟨order, later, -, hlater, hprecedes⟩ := requests_linearize hrun hrun'
  exact ⟨s, s', order, later, hrun, hrun', hlater,
    hprecedes 0 5 http _ hserving (Serving.eq_idle hidle) hworked⟩

end ClobApi
