import ClobApi.Foundation.Collections

/-!
# Pre-trade risk checks

The checker sits in front of the engine.  Its rate limit counts the submissions
that a trader id has made in the window before the present one; nothing here
knows whether the trader has signed them.
-/

namespace ClobApi

open Foundation

structure MarketRiskConfig where
  maxOrderSizeLots : UInt64
  priceBandBps : UInt64

structure RiskConfig where
  maxOrdersPerWindow : UInt64
  windowMs : UInt64
  markets : HashMap String MarketRiskConfig

inductive RiskError where
  | rateLimitExceeded (traderId : String) (count windowMs max : UInt64)
  | orderTooLarge (marketId : String) (sizeLots maxLots : UInt64)
  | priceOutsideBand (marketId : String)
      (priceTicks referenceTicks bandBps : UInt64)
  deriving DecidableEq, Repr

def RiskError.message : RiskError → String
  | .rateLimitExceeded traderId count windowMs max =>
      s!"rate limit exceeded: trader '{traderId}' submitted {count} orders " ++
        s!"in {windowMs}ms (max {max})"
  | .orderTooLarge marketId sizeLots maxLots =>
      s!"order size {sizeLots} exceeds max allowed {maxLots} " ++
        s!"for market '{marketId}'"
  | .priceOutsideBand marketId priceTicks referenceTicks bandBps =>
      s!"price {priceTicks} is outside the {bandBps}bps band " ++
        s!"around reference price {referenceTicks} for market '{marketId}'"

def maxU64 : UInt64 := UInt64.ofNat (UInt64.size - 1)

def saturatingSub (a b : UInt64) : UInt64 := if b ≤ a then a - b else 0

def saturatingAdd (a b : UInt64) : UInt64 :=
  if a.toNat + b.toNat < UInt64.size then a + b else maxU64

def saturatingMul (a b : UInt64) : UInt64 :=
  if a.toNat * b.toNat < UInt64.size then a * b else maxU64

theorem saturatingSub_toNat (a b : UInt64) :
    (saturatingSub a b).toNat = a.toNat - b.toNat := by
  unfold saturatingSub
  split
  · next h => exact UInt64.toNat_sub_of_le _ _ h
  · next h =>
      rw [UInt64.le_iff_toNat_le] at h
      simp only [UInt64.toNat_zero]
      omega

theorem saturatingAdd_toNat (a b : UInt64) :
    (saturatingAdd a b).toNat =
      min (a.toNat + b.toNat) (UInt64.size - 1) := by
  unfold saturatingAdd
  split
  · next h =>
      rw [UInt64.toNat_add, Nat.mod_eq_of_lt h]
      omega
  · next h =>
      have hmax : maxU64.toNat = UInt64.size - 1 := rfl
      omega

theorem saturatingMul_toNat (a b : UInt64) :
    (saturatingMul a b).toNat =
      min (a.toNat * b.toNat) (UInt64.size - 1) := by
  unfold saturatingMul
  split
  · next h =>
      rw [UInt64.toNat_mul, Nat.mod_eq_of_lt h]
      omega
  · next h =>
      have hmax : maxU64.toNat = UInt64.size - 1 := rfl
      omega

structure RiskChecker where
  config : RiskConfig
  /-- the submission timestamps of each trader -/
  windows : HashMap String (List UInt64)
  referencePrices : HashMap String UInt64

namespace RiskChecker

def new (config : RiskConfig) : RiskChecker := ⟨config, .empty, .empty⟩

def updateReferencePrice (risk : RiskChecker) (marketId : String)
    (priceTicks : UInt64) : RiskChecker :=
  { risk with
    referencePrices := risk.referencePrices.insert marketId priceTicks }

def inWindow (risk : RiskChecker) (now : UInt64) (timestamps : List UInt64) :
    List UInt64 :=
  timestamps.filter fun t => t ≥ saturatingSub now risk.config.windowMs

def timestamps (risk : RiskChecker) (traderId : String) : List UInt64 :=
  (risk.windows.get? traderId).getD []

def submissionCount (risk : RiskChecker) (traderId : String) (now : UInt64) :
    UInt64 :=
  UInt64.ofNat (risk.inWindow now (risk.timestamps traderId)).length

def checkRateLimit (risk : RiskChecker) (traderId : String) (now : UInt64) :
    Except RiskError Unit :=
  let count := risk.submissionCount traderId now
  if count ≥ risk.config.maxOrdersPerWindow then
    .error (.rateLimitExceeded traderId count risk.config.windowMs
      risk.config.maxOrdersPerWindow)
  else .ok ()

def recordSubmission (risk : RiskChecker) (traderId : String) (now : UInt64) :
    RiskChecker :=
  { risk with
    windows := risk.windows.insert traderId
      (risk.inWindow now (risk.timestamps traderId) ++ [now]) }

def checkPriceBand (marketId : String)
    (priceTicks reference bandBps : UInt64) : Except RiskError Unit :=
  let band := saturatingMul reference bandBps / 10000
  let lo := saturatingSub reference band
  let hi := saturatingAdd reference band
  if priceTicks < lo ∨ priceTicks > hi then
    .error (.priceOutsideBand marketId priceTicks reference bandBps)
  else .ok ()

/-- Steps 2 and 3 of `check`. -/
def checkMarket (risk : RiskChecker) (marketId : String)
    (priceTicks sizeLots : UInt64) : Except RiskError Unit :=
  match risk.config.markets.get? marketId with
  | none => .ok ()
  | some market =>
      if sizeLots > market.maxOrderSizeLots then
        .error (.orderTooLarge marketId sizeLots market.maxOrderSizeLots)
      else if market.priceBandBps > 0 then
        match risk.referencePrices.get? marketId with
        | none => .ok ()
        | some reference =>
            checkPriceBand marketId priceTicks reference market.priceBandBps
      else .ok ()

/-- The checker after the submission is counted; an error changes nothing. -/
def check (risk : RiskChecker) (now : UInt64) (traderId marketId : String)
    (priceTicks sizeLots : UInt64) : Except RiskError RiskChecker :=
  match risk.checkRateLimit traderId now with
  | .error error => .error error
  | .ok () =>
  match risk.checkMarket marketId priceTicks sizeLots with
  | .error error => .error error
  | .ok () => .ok (risk.recordSubmission traderId now)

theorem timestamps_recordSubmission (risk : RiskChecker)
    (traderId other : String) (now : UInt64) :
    (risk.recordSubmission traderId now).timestamps other =
      if other = traderId then
        risk.inWindow now (risk.timestamps traderId) ++ [now]
      else risk.timestamps other := by
  unfold timestamps RiskChecker.recordSubmission
  simp only [HashMap.get?_insert]
  split <;> rfl

theorem checkMarket_error {risk : RiskChecker} {marketId : String}
    {priceTicks sizeLots : UInt64} {error : RiskError}
    (h : risk.checkMarket marketId priceTicks sizeLots = .error error) :
    (∃ maxLots, error = .orderTooLarge marketId sizeLots maxLots) ∨
      ∃ reference bandBps,
        error = .priceOutsideBand marketId priceTicks reference bandBps := by
  unfold checkMarket at h
  split at h
  · cases h
  split at h
  · cases h
    exact .inl ⟨_, rfl⟩
  split at h
  · split at h
    · cases h
    · unfold checkPriceBand at h
      dsimp only at h
      split at h
      · cases h
        exact .inr ⟨_, _, rfl⟩
      · cases h
  · cases h

/-- A call of the checker, with the reading of its clock. -/
inductive Call where
  | check (now : UInt64) (traderId marketId : String)
      (priceTicks sizeLots : UInt64)
  | updateReferencePrice (marketId : String) (priceTicks : UInt64)
  deriving DecidableEq, Repr

def perform (risk : RiskChecker) : Call → RiskChecker × Except RiskError Unit
  | .check now traderId marketId priceTicks sizeLots =>
      match risk.check now traderId marketId priceTicks sizeLots with
      | .error error => (risk, .error error)
      | .ok next => (next, .ok ())
  | .updateReferencePrice marketId priceTicks =>
      (risk.updateReferencePrice marketId priceTicks, .ok ())

/-! ## Full windows -/

def isFull (risk : RiskChecker) (traderId : String) (now : UInt64) : Bool :=
  risk.submissionCount traderId now ≥ risk.config.maxOrdersPerWindow

/-- What `check` answers: the rate limit comes before the market. -/
inductive CheckAnswer (risk : RiskChecker) (now : UInt64)
    (traderId marketId : String) (priceTicks sizeLots : UInt64) :
    Except RiskError RiskChecker → Prop
  | limited (full : risk.isFull traderId now = true) :
      CheckAnswer risk now traderId marketId priceTicks sizeLots
        (.error (.rateLimitExceeded traderId
          (risk.submissionCount traderId now) risk.config.windowMs
          risk.config.maxOrdersPerWindow))
  | refused {error : RiskError} (room : risk.isFull traderId now = false)
      (market : risk.checkMarket marketId priceTicks sizeLots = .error error) :
      CheckAnswer risk now traderId marketId priceTicks sizeLots (.error error)
  | recorded (room : risk.isFull traderId now = false)
      (market : risk.checkMarket marketId priceTicks sizeLots = .ok ()) :
      CheckAnswer risk now traderId marketId priceTicks sizeLots
        (.ok (risk.recordSubmission traderId now))

theorem check_answer (risk : RiskChecker) (now : UInt64)
    (traderId marketId : String) (priceTicks sizeLots : UInt64) :
    risk.CheckAnswer now traderId marketId priceTicks sizeLots
      (risk.check now traderId marketId priceTicks sizeLots) := by
  by_cases hfull :
      risk.submissionCount traderId now ≥ risk.config.maxOrdersPerWindow
  · have hcheck : risk.check now traderId marketId priceTicks sizeLots =
        .error (.rateLimitExceeded traderId
          (risk.submissionCount traderId now) risk.config.windowMs
          risk.config.maxOrdersPerWindow) := by
      simp [check, checkRateLimit, hfull]
    rw [hcheck]
    exact .limited (decide_eq_true hfull)
  · have hroom : risk.isFull traderId now = false := decide_eq_false hfull
    cases hmarket : risk.checkMarket marketId priceTicks sizeLots with
    | error error =>
        have hcheck : risk.check now traderId marketId priceTicks sizeLots =
            .error error := by
          simp [check, checkRateLimit, hfull, hmarket]
        rw [hcheck]
        exact .refused hroom hmarket
    | ok =>
        have hcheck : risk.check now traderId marketId priceTicks sizeLots =
            .ok (risk.recordSubmission traderId now) := by
          simp [check, checkRateLimit, hfull, hmarket]
        rw [hcheck]
        exact .recorded hroom hmarket

/-- No window ever holds more submissions than the limit. -/
def Bounded (risk : RiskChecker) : Prop :=
  ∀ traderId,
    (risk.timestamps traderId).length ≤ risk.config.maxOrdersPerWindow.toNat

theorem new_bounded (config : RiskConfig) : (new config).Bounded :=
  fun _ => Nat.zero_le _

section Bounded

variable {risk : RiskChecker} {traderId : String} {now : UInt64}

theorem Bounded.inWindow_length (h : risk.Bounded) (traderId : String)
    (now : UInt64) :
    (risk.inWindow now (risk.timestamps traderId)).length ≤
      risk.config.maxOrdersPerWindow.toNat :=
  Nat.le_trans (List.length_filter_le _ _) (h traderId)

theorem Bounded.submissionCount_toNat (h : risk.Bounded) (traderId : String)
    (now : UInt64) :
    (risk.submissionCount traderId now).toNat =
      (risk.inWindow now (risk.timestamps traderId)).length := by
  have hlength := h.inWindow_length traderId now
  have hlimit := risk.config.maxOrdersPerWindow.toNat_lt
  exact UInt64.toNat_ofNat_of_lt' (Nat.lt_of_le_of_lt hlength hlimit)

theorem Bounded.checkRateLimit_eq (h : risk.Bounded) (traderId : String)
    (now : UInt64) :
    risk.checkRateLimit traderId now =
      if risk.isFull traderId now then
        .error (.rateLimitExceeded traderId risk.config.maxOrdersPerWindow
          risk.config.windowMs risk.config.maxOrdersPerWindow)
      else .ok () := by
  unfold checkRateLimit isFull
  by_cases hfull : risk.submissionCount traderId now ≥
      risk.config.maxOrdersPerWindow
  · have hcount : risk.submissionCount traderId now =
        risk.config.maxOrdersPerWindow := by
      have hlength := h.inWindow_length traderId now
      rw [← h.submissionCount_toNat] at hlength
      exact UInt64.le_antisymm hlength hfull
    simp [hcount]
  · simp [hfull]

theorem Bounded.recordSubmission (h : risk.Bounded)
    (hroom : risk.isFull traderId now = false) :
    (risk.recordSubmission traderId now).Bounded := by
  intro other
  have hcount : (risk.inWindow now (risk.timestamps traderId)).length <
      risk.config.maxOrdersPerWindow.toNat := by
    rw [← h.submissionCount_toNat]
    simpa [isFull, UInt64.lt_iff_toNat_lt] using hroom
  rw [timestamps_recordSubmission]
  split
  · rw [List.length_append, List.length_singleton]
    exact Nat.succ_le_of_lt hcount
  · exact h other

end Bounded

end RiskChecker

end ClobApi
