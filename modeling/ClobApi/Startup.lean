import ClobApi.Engine.Preservation
import ClobApi.Foundation.Trace

/-!
# Startup and restarts

`main` builds an engine, registers two markets and restores the log that the
database holds.  A restart does all of this again with the full log.
-/

namespace ClobApi

open Foundation

def btcUsdc : MarketConfig where
  id := ⟨"BTC-USDC"⟩
  baseAsset := "BTC"
  quoteAsset := "USDC"
  tickSize := 1000
  lotSize := 1
  feeBpsMaker := 10
  feeBpsTaker := 20
  status := .active

def ethUsdc : MarketConfig where
  id := ⟨"ETH-USDC"⟩
  baseAsset := "ETH"
  quoteAsset := "USDC"
  tickSize := 100
  lotSize := 1
  feeBpsMaker := 10
  feeBpsTaker := 20
  status := .active

/-- The engine before `main` restores the events. -/
def startupEngine : Engine := (Engine.new.addMarket btcUsdc).addMarket ethUsdc

/-- `main` stops if the answer is an error. -/
def restart (shuffle : Shuffle Order) (events : List SequencedEvent) :
    Engine × Except ReplayError Unit :=
  startupEngine.restoreFromEvents shuffle events

/-! ## Runs across restarts -/

def Op.isServed : Op → Bool
  | .processOrder .. | .processCancel .. | .pauseMarket ..
  | .resumeMarket .. | .cancelAllOrders .. => true
  | .addMarket .. | .restoreFromEvents .. => false

inductive ServerOp where
  | call (op : Op)
  | restart (shuffle : Shuffle Order)

section Server

variable (crypto : Crypto)

def ServerOp.next (e : Engine) : ServerOp → Engine
  | .call op => (e.apply crypto op).1
  | .restart shuffle => (ClobApi.restart shuffle e.log).1

def ServerOp.Admitted (e : Engine) : ServerOp → Prop
  | .call op => e.Admits op ∧ op.isServed = true
  | .restart shuffle => (ClobApi.restart shuffle e.log).2 = .ok ()

def ServerStep (e : Engine) (op : ServerOp) (e' : Engine) : Prop :=
  op.Admitted e ∧ op.next crypto e = e'

end Server

theorem startupEngine_inv (completed basic : Prop) :
    startupEngine.Inv completed basic noOrder :=
  addMarket_inv (addMarket_inv (Engine.new_inv completed basic) btcUsdc) ethUsdc

theorem restart_inv {completed basic : Prop} {e : Engine}
    (h : e.Inv completed basic noOrder) (shuffle : Shuffle Order) :
    (restart shuffle e.log).1.Inv completed basic noOrder ∧
      (restart shuffle e.log).2 = .ok () :=
  restoreFromEvents_inv h (fun _ => startupEngine_inv completed basic) shuffle

theorem ServerStep.run_inv {crypto : Crypto} {ops : List ServerOp} {e : Engine}
    (h : Run (ServerStep crypto) startupEngine ops e) :
    e.Inv False False noOrder :=
  h.invariant (startupEngine_inv False False) fun e op e' hinv hstep => by
    obtain ⟨hadmitted, rfl⟩ := hstep
    cases op with
    | call op => exact apply_inv hinv hadmitted.1 nofun nofun
    | restart shuffle => exact (restart_inv hinv shuffle).1

theorem ServerStep.run_restarts {crypto : Crypto} {ops : List ServerOp}
    {e : Engine} (h : Run (ServerStep crypto) startupEngine ops e)
    (shuffle : Shuffle Order) : (ServerOp.restart shuffle).Admitted e :=
  (restart_inv (ServerStep.run_inv h) shuffle).2

theorem restart_log (shuffle : Shuffle Order) (events : List SequencedEvent)
    (hok : (restart shuffle events).2 = .ok ()) :
    (restart shuffle events).1.log = events := by
  unfold restart Engine.restoreFromEvents at hok ⊢
  split
  · next hempty => exact (List.isEmpty_iff.mp hempty).symm
  · next hne =>
      simp only [hne, Bool.false_eq_true, if_false] at hok ⊢
      split
      · next error => simp [error] at hok
      · rfl

end ClobApi
