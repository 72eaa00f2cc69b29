import ClobApi.Foundation.SlidingWindow
import ClobApi.Foundation.Trace
import ClobApi.Risk
import Mathlib.Data.List.Induction

/-!
# Rate limits and price bands

What the checker refuses: by the rate limit exactly the submissions that meet
their window full, and by the price band what lies outside it, unless the
product that measures the band saturates.
-/

namespace ClobApi

open Foundation

namespace RiskChecker

def Call.now? : Call → Option UInt64
  | .check now .. => some now
  | .updateReferencePrice .. => none

def Call.isBy (traderId : String) : Call → Bool
  | .check _ submitter .. => submitter == traderId
  | .updateReferencePrice .. => false

def Call.concerns (traderId : String) : Call → Bool
  | .check _ submitter .. => submitter == traderId
  | .updateReferencePrice .. => true

def readings (calls : List Call) : List UInt64 := calls.filterMap Call.now?

def ClockForward (calls : List Call) : Prop :=
  (readings calls).Pairwise fun now later => now ≤ later

def afterCalls (config : RiskConfig) (calls : List Call) : RiskChecker :=
  calls.foldl (fun risk call => (risk.perform call).1) (new config)

def acceptance (traderId : String) (risk : RiskChecker) (call : Call) :
    List UInt64 :=
  if call.isBy traderId && (risk.perform call).2.isOk then call.now?.toList
  else []

def acceptedAt (config : RiskConfig) (traderId : String)
    (calls : List Call) : List UInt64 :=
  emissions (fun risk call => (risk.perform call).1) (acceptance traderId)
    (new config) calls

def IsRateLimited (answer : Except RiskError Unit) : Prop :=
  ∃ traderId count windowMs max,
    answer = .error (.rateLimitExceeded traderId count windowMs max)

theorem readings_append (calls : List Call) (call : Call) :
    readings (calls ++ [call]) = readings calls ++ call.now?.toList := by
  unfold readings
  rw [List.filterMap_append]
  cases call <;> rfl

theorem afterCalls_append (config : RiskConfig) (calls : List Call)
    (call : Call) :
    afterCalls config (calls ++ [call]) =
      ((afterCalls config calls).perform call).1 := by
  simp [afterCalls]

theorem acceptedAt_append (config : RiskConfig) (traderId : String)
    (calls : List Call) (call : Call) :
    acceptedAt config traderId (calls ++ [call]) =
      acceptedAt config traderId calls ++
        acceptance traderId (afterCalls config calls) call :=
  emissions_append _ _ _ _ _

theorem le_of_clockForward {calls : List Call} {call : Call} {now r : UInt64}
    (h : ClockForward (calls ++ [call])) (hnow : call.now? = some now)
    (hr : r ∈ readings calls) : r.toNat ≤ now.toNat := by
  unfold ClockForward at h
  rw [readings_append, hnow] at h
  exact (List.pairwise_append.mp h).2.2 r hr now (by simp)

/-! ## The limit of a window -/

structure Tracks (risk : RiskChecker) (config : RiskConfig)
    (clock : List UInt64) (history : String → List UInt64) : Prop where
  sameConfig : risk.config = config
  bounded : risk.Bounded
  past : ∀ traderId t, t ∈ history traderId → t ∈ clock
  covers : ∀ traderId last, (∀ r ∈ clock, r.toNat ≤ last) →
    SlidingWindow.Covers UInt64.toNat config.windowMs.toNat
      (risk.timestamps traderId) (history traderId) last
  admitted : ∀ traderId, SlidingWindow.Admitted UInt64.toNat
    config.windowMs.toNat config.maxOrdersPerWindow.toNat (history traderId)

theorem inWindow_eq_live (risk : RiskChecker) (now : UInt64)
    (timestamps : List UInt64) :
    risk.inWindow now timestamps =
      SlidingWindow.live UInt64.toNat risk.config.windowMs.toNat now.toNat
        timestamps := by
  unfold inWindow SlidingWindow.live
  refine List.filter_congr fun t _ => ?_
  simp [saturatingSub_toNat, UInt64.le_iff_toNat_le]

section Tracks

variable {risk : RiskChecker} {config : RiskConfig} {clock : List UInt64}
  {history : String → List UInt64} {now : UInt64} {traderId : String}

theorem tracks_new (config : RiskConfig) :
    Tracks (new config) config [] fun _ => [] where
  sameConfig := rfl
  bounded := new_bounded config
  past := by simp
  covers _ last _ := SlidingWindow.covers_nil last
  admitted _ := .nil

theorem Tracks.isFull_iff (h : Tracks risk config clock history)
    (hclock : ∀ r ∈ clock, r.toNat ≤ now.toNat) :
    risk.isFull traderId now = true ↔
      config.maxOrdersPerWindow.toNat ≤
        (SlidingWindow.live UInt64.toNat config.windowMs.toNat now.toNat
          (history traderId)).length := by
  have hcount := h.bounded.submissionCount_toNat traderId now
  rw [inWindow_eq_live, h.sameConfig,
    h.covers traderId now.toNat hclock now.toNat (Nat.le_refl _)] at hcount
  rw [← hcount]
  simp [isFull, h.sameConfig, UInt64.le_iff_toNat_le]

theorem Tracks.record (h : Tracks risk config clock history)
    (hclock : ∀ r ∈ clock, r.toNat ≤ now.toNat)
    (hroom : risk.isFull traderId now = false) :
    Tracks (risk.recordSubmission traderId now) config (clock ++ [now])
      fun other => history other ++ if traderId = other then [now] else [] where
  sameConfig := h.sameConfig
  bounded := h.bounded.recordSubmission hroom
  past := by
    intro other t ht
    rcases List.mem_append.mp ht with hold | hnew
    · exact List.mem_append_left _ (h.past other t hold)
    · grind
  covers := by
    intro other last hlast
    have hold := h.covers other now.toNat hclock
    have hnow : now.toNat ≤ last := hlast now (by simp)
    rw [timestamps_recordSubmission]
    by_cases hother : traderId = other
    · subst hother
      have hrecord := hold.record (a := now) (Nat.le_refl _)
      rw [← h.sameConfig, ← inWindow_eq_live] at hrecord
      simpa [h.sameConfig] using hrecord.later hnow
    · have hne : other ≠ traderId := fun heq => hother heq.symm
      simpa [hne, hother] using hold.later hnow
  admitted := by
    intro other
    by_cases hother : traderId = other
    · subst hother
      have hwindow : (SlidingWindow.live UInt64.toNat config.windowMs.toNat
          now.toNat (history traderId)).length <
            config.maxOrdersPerWindow.toNat := by
        refine Nat.lt_of_not_le fun hfull => ?_
        rw [← h.isFull_iff hclock, hroom] at hfull
        cases hfull
      simpa using SlidingWindow.Admitted.record (h.admitted traderId)
        (fun t ht => hclock t (h.past traderId t ht)) hwindow
    · simpa [hother] using h.admitted other

theorem Tracks.skip (h : Tracks risk config clock history)
    (risk' : RiskChecker) (extra : List UInt64)
    (hconfig : risk'.config = risk.config)
    (hwindows : risk'.windows = risk.windows) :
    Tracks risk' config (clock ++ extra) history where
  sameConfig := hconfig.trans h.sameConfig
  bounded := by
    intro other
    rw [hconfig]
    unfold timestamps
    rw [hwindows]
    exact h.bounded other
  past other t ht := List.mem_append_left _ (h.past other t ht)
  covers := by
    intro other last hlast
    unfold timestamps
    rw [hwindows]
    exact h.covers other last fun r hr =>
      hlast r (List.mem_append_left _ hr)
  admitted := h.admitted

theorem perform_check_cases (risk : RiskChecker) (now : UInt64)
    (traderId marketId : String) (priceTicks sizeLots : UInt64) :
    (∃ error, risk.perform (.check now traderId marketId priceTicks sizeLots) =
        (risk, .error error)) ∨
      risk.isFull traderId now = false ∧
        risk.perform (.check now traderId marketId priceTicks sizeLots) =
          (risk.recordSubmission traderId now, .ok ()) := by
  have hanswer := risk.check_answer now traderId marketId priceTicks sizeLots
  dsimp only [perform]
  generalize risk.check now traderId marketId priceTicks sizeLots = answer
    at hanswer ⊢
  cases hanswer with
  | limited full => exact .inl ⟨_, rfl⟩
  | refused room market => exact .inl ⟨_, rfl⟩
  | recorded room market => exact .inr ⟨room, rfl⟩

theorem Tracks.perform (h : Tracks risk config clock history) (call : Call)
    (hclock : ∀ now, call.now? = some now → ∀ r ∈ clock, r.toNat ≤ now.toNat) :
    Tracks (risk.perform call).1 config (clock ++ call.now?.toList)
      fun traderId => history traderId ++ acceptance traderId risk call := by
  cases call with
  | updateReferencePrice marketId priceTicks =>
      have hskip := h.skip (risk.updateReferencePrice marketId priceTicks) []
        rfl rfl
      simpa [acceptance, RiskChecker.perform, Call.isBy, Call.now?] using hskip
  | check now submitter marketId priceTicks sizeLots =>
      obtain ⟨error, hperform⟩ | ⟨hroom, hperform⟩ :=
        perform_check_cases risk now submitter marketId priceTicks sizeLots
      · have hskip := h.skip risk [now] rfl rfl
        simpa [acceptance, hperform, Except.isOk, Except.toBool,
          Call.now?] using hskip
      · have hrecord := h.record (hclock now rfl) hroom
        simpa [acceptance, hperform, Except.isOk, Except.toBool, Call.isBy,
          Call.now?] using hrecord

end Tracks

theorem tracks_afterCalls (config : RiskConfig) (calls : List Call)
    (h : ClockForward calls) :
    Tracks (afterCalls config calls) config (readings calls)
      fun traderId => acceptedAt config traderId calls := by
  induction calls using List.reverseRecOn with
  | nil => exact tracks_new config
  | append_singleton calls call ih =>
      have hbefore : ClockForward calls := by
        unfold ClockForward at h ⊢
        rw [readings_append] at h
        exact (List.pairwise_append.mp h).1
      have hstep := (ih hbefore).perform call fun now hnow r hr =>
        le_of_clockForward h hnow hr
      simpa only [afterCalls_append, readings_append, acceptedAt_append]
        using hstep

theorem ClockForward.of_append {calls after : List Call}
    (h : ClockForward (calls ++ after)) : ClockForward calls := by
  unfold ClockForward readings at h ⊢
  rw [List.filterMap_append] at h
  exact (List.pairwise_append.mp h).1

theorem isRateLimited_check_iff (risk : RiskChecker) (now : UInt64)
    (traderId marketId : String) (priceTicks sizeLots : UInt64) :
    IsRateLimited (risk.perform
        (.check now traderId marketId priceTicks sizeLots)).2 ↔
      risk.isFull traderId now = true := by
  have hanswer := risk.check_answer now traderId marketId priceTicks sizeLots
  unfold IsRateLimited
  dsimp only [perform]
  generalize risk.check now traderId marketId priceTicks sizeLots = answer
    at hanswer ⊢
  cases hanswer with
  | limited full => simp [full]
  | refused room market =>
      obtain ⟨maxLots, rfl⟩ | ⟨reference, bandBps, rfl⟩ :=
        checkMarket_error market <;> simp [room]
  | recorded room market => simp [room]

theorem perform_error {risk : RiskChecker} {call : Call} {error : RiskError}
    (h : (risk.perform call).2 = .error error) :
    (risk.perform call).1 = risk := by
  cases call with
  | updateReferencePrice marketId priceTicks => cases h
  | check now traderId marketId priceTicks sizeLots =>
      obtain ⟨error, hperform⟩ | ⟨-, hperform⟩ :=
        perform_check_cases risk now traderId marketId priceTicks sizeLots
      · rw [hperform]
      · rw [hperform] at h
        cases h

/-! ## Calls of other traders -/

structure SameFor (traderId : String) (risk risk' : RiskChecker) : Prop where
  config : risk'.config = risk.config
  window : risk'.timestamps traderId = risk.timestamps traderId
  referencePrices : risk'.referencePrices = risk.referencePrices

section SameFor

variable {traderId : String} {risk risk' : RiskChecker}

theorem SameFor.recordSubmission (h : SameFor traderId risk risk')
    (now : UInt64) :
    SameFor traderId (risk.recordSubmission traderId now)
      (risk'.recordSubmission traderId now) := by
  refine ⟨h.config, ?_, h.referencePrices⟩
  simp [timestamps_recordSubmission, inWindow, h.config, h.window]

theorem SameFor.perform (h : SameFor traderId risk risk') {call : Call}
    (hcall : call.concerns traderId = true) :
    SameFor traderId (risk.perform call).1 (risk'.perform call).1 ∧
      (risk.perform call).2 = (risk'.perform call).2 := by
  cases call with
  | updateReferencePrice marketId priceTicks =>
      refine ⟨⟨h.config, h.window, ?_⟩, rfl⟩
      simp only [RiskChecker.perform, updateReferencePrice, h.referencePrices]
  | check now submitter marketId priceTicks sizeLots =>
      obtain rfl : submitter = traderId := by
        simpa [Call.concerns] using hcall
      have hrate : risk'.checkRateLimit submitter now =
          risk.checkRateLimit submitter now := by
        unfold checkRateLimit submissionCount inWindow
        rw [h.config, h.window]
      have hmarket : risk'.checkMarket marketId priceTicks sizeLots =
          risk.checkMarket marketId priceTicks sizeLots := by
        unfold checkMarket
        rw [h.config, h.referencePrices]
      simp only [RiskChecker.perform, check, hrate, hmarket]
      cases risk.checkRateLimit submitter now with
      | error error => exact ⟨h, rfl⟩
      | ok =>
          cases risk.checkMarket marketId priceTicks sizeLots with
          | error error => exact ⟨h, rfl⟩
          | ok => exact ⟨h.recordSubmission now, rfl⟩

theorem SameFor.skip (h : SameFor traderId risk risk') {call : Call}
    (hcall : call.concerns traderId = false) :
    SameFor traderId (risk.perform call).1 risk' := by
  cases call with
  | updateReferencePrice marketId priceTicks => cases hcall
  | check now submitter marketId priceTicks sizeLots =>
      have hother : traderId ≠ submitter := by
        rintro rfl
        simp [Call.concerns] at hcall
      obtain ⟨error, hperform⟩ | ⟨-, hperform⟩ :=
        perform_check_cases risk now submitter marketId priceTicks sizeLots
      · rw [hperform]
        exact h
      · rw [hperform]
        refine ⟨h.config, ?_, h.referencePrices⟩
        rw [timestamps_recordSubmission, if_neg hother, h.window]

end SameFor

/--
The checker lets a submission through the rate limit exactly if the window of
its trader has room; no interval as long as the window holds more accepted
submissions than the limit; a refusal changes nothing, and a trader gets the
same answers without the submissions of the others.
-/
theorem rate_limit_is_sliding_window (config : RiskConfig)
    (calls : List Call) (hclock : ClockForward calls) :
    (∀ before now traderId marketId priceTicks sizeLots after,
      calls = before ++
          .check now traderId marketId priceTicks sizeLots :: after →
        (IsRateLimited ((afterCalls config before).perform
            (.check now traderId marketId priceTicks sizeLots)).2 ↔
          config.maxOrdersPerWindow.toNat ≤
            ((acceptedAt config traderId before).filter fun t =>
              saturatingSub now config.windowMs ≤ t).length)) ∧
    (∀ (traderId : String) (first last : Nat),
      last ≤ first + config.windowMs.toNat →
        ((acceptedAt config traderId calls).filter fun t =>
          first ≤ t.toNat ∧ t.toNat ≤ last).length ≤
            config.maxOrdersPerWindow.toNat) ∧
    (∀ before call after error, calls = before ++ call :: after →
      ((afterCalls config before).perform call).2 = .error error →
        ((afterCalls config before).perform call).1 =
          afterCalls config before) ∧
    ∀ traderId,
      answers perform (fun _ call => call.concerns traderId) (new config)
          calls =
        allAnswers perform (new config)
          (calls.filter fun call => call.concerns traderId) := by
  refine ⟨?_, ?_, fun _ _ _ _ _ herror => perform_error herror, ?_⟩
  · rintro before now traderId marketId priceTicks sizeLots after rfl
    have hbefore : ClockForward (before ++
        [.check now traderId marketId priceTicks sizeLots]) := by
      rw [List.append_cons] at hclock
      exact hclock.of_append
    have htracks := tracks_afterCalls config before hbefore.of_append
    rw [isRateLimited_check_iff, htracks.isFull_iff fun r hr =>
      le_of_clockForward hbefore rfl hr, ← htracks.sameConfig,
      ← inWindow_eq_live]
    rfl
  · intro traderId first last hwidth
    exact ((tracks_afterCalls config calls hclock).admitted
      traderId).length_within_le hwidth
  · intro traderId
    have hsame : SameFor traderId (new config) (new config) := ⟨rfl, rfl, rfl⟩
    have hanswers := @answers_kept _ _ _ _ perform perform
      (fun _ => Call.concerns traderId) (SameFor traderId)
      (fun _ _ _ h hcall => h.perform hcall)
      (fun _ _ _ h hcall => h.skip hcall) _ _ hsame calls
    rw [kept_eq_filter] at hanswers
    exact hanswers.1

theorem rate_limit_is_sliding_window_full :
    IsRateLimited ((afterCalls ⟨1, 10, .empty⟩
        [.check 7 "alice" "BTC-USD" 5 1]).perform
          (.check 17 "alice" "BTC-USD" 5 1)).2 :=
  ((rate_limit_is_sliding_window ⟨1, 10, .empty⟩
      [.check 7 "alice" "BTC-USD" 5 1, .check 17 "alice" "BTC-USD" 5 1]
      (by unfold ClockForward; decide)).1 [.check 7 "alice" "BTC-USD" 5 1]
        17 "alice" "BTC-USD" 5 1 [] rfl).mpr (by decide)

/-! ## The price band -/

def deviation (priceTicks reference : UInt64) : Nat :=
  ((priceTicks.toNat : Int) - reference.toNat).natAbs

def IsOutsideBand (answer : Except RiskError RiskChecker) : Prop :=
  ∃ marketId priceTicks reference bandBps,
    answer = .error (.priceOutsideBand marketId priceTicks reference bandBps)

/-- The band that the code measures: its product stops at `u64::MAX`. -/
theorem checkPriceBand_eq (marketId : String)
    (priceTicks reference bandBps : UInt64) :
    checkPriceBand marketId priceTicks reference bandBps =
      if min (reference.toNat * bandBps.toNat) (UInt64.size - 1) <
          deviation priceTicks reference * 10000 then
        .error (.priceOutsideBand marketId priceTicks reference bandBps)
      else .ok () := by
  have hband : (saturatingMul reference bandBps / 10000).toNat =
      min (reference.toNat * bandBps.toNat) (UInt64.size - 1) / 10000 := by
    rw [UInt64.toNat_div, saturatingMul_toNat]
    rfl
  have hprice := priceTicks.toNat_lt
  unfold checkPriceBand deviation
  dsimp only
  refine if_congr ?_ rfl rfl
  rw [gt_iff_lt, UInt64.lt_iff_toNat_lt, UInt64.lt_iff_toNat_lt,
    saturatingSub_toNat, saturatingAdd_toNat, hband]
  generalize reference.toNat * bandBps.toNat = product
  have hsize : UInt64.size = 2 ^ 64 := rfl
  omega

section PriceBand

variable {risk : RiskChecker} {now : UInt64} {traderId marketId : String}
  {priceTicks sizeLots : UInt64} {market : MarketRiskConfig}
  {reference : UInt64}

theorem isOutsideBand_iff (hrate : risk.isFull traderId now = false)
    (hmarket : risk.config.markets.get? marketId = some market)
    (hsize : sizeLots ≤ market.maxOrderSizeLots)
    (hband : 0 < market.priceBandBps)
    (href : risk.referencePrices.get? marketId = some reference) :
    IsOutsideBand (risk.check now traderId marketId priceTicks sizeLots) ↔
      min (reference.toNat * market.priceBandBps.toNat) (UInt64.size - 1) <
        deviation priceTicks reference * 10000 := by
  have hroom : risk.checkRateLimit traderId now = .ok () := by
    unfold checkRateLimit
    exact if_neg (by simpa [isFull] using hrate)
  have hnot : ¬ sizeLots > market.maxOrderSizeLots := UInt64.not_lt.mpr hsize
  have hcheck : risk.checkMarket marketId priceTicks sizeLots =
      checkPriceBand marketId priceTicks reference market.priceBandBps := by
    unfold checkMarket
    simp only [hmarket, hnot, if_false, gt_iff_lt, hband, if_true, href]
  simp only [IsOutsideBand, check, hroom, hcheck, checkPriceBand_eq]
  generalize min (reference.toNat * market.priceBandBps.toNat)
    (UInt64.size - 1) = band
  by_cases hfar : band < deviation priceTicks reference * 10000
  · simp [hfar]
  · simp [hfar]

/--
The band is exact unless the product of reference and band width reaches 2^64
and the price is nearer than that product says, yet not near enough for
`u64::MAX` to say so.
-/
theorem price_band_exact_iff (hrate : risk.isFull traderId now = false)
    (hmarket : risk.config.markets.get? marketId = some market)
    (hsize : sizeLots ≤ market.maxOrderSizeLots)
    (hband : 0 < market.priceBandBps)
    (href : risk.referencePrices.get? marketId = some reference) :
    (IsOutsideBand (risk.check now traderId marketId priceTicks sizeLots) ↔
        reference.toNat * market.priceBandBps.toNat <
          deviation priceTicks reference * 10000) ↔
      ¬ (UInt64.size ≤ deviation priceTicks reference * 10000 ∧
        deviation priceTicks reference * 10000 ≤
          reference.toNat * market.priceBandBps.toNat) := by
  rw [isOutsideBand_iff hrate hmarket hsize hband href]
  have hsize : UInt64.size = 2 ^ 64 := rfl
  omega

end PriceBand

/-! ## Where the product saturates -/

def wideBand : RiskChecker :=
  ((new ⟨1, 0, HashMap.empty.insert "BTC-USD" ⟨maxU64, 10000⟩⟩)
    |>.updateReferencePrice "BTC-USD" 9223372036854775808)

theorem price_band_exact_iff_near :
    IsOutsideBand (wideBand.check 0 "alice" "BTC-USD" 9223372036854775809 1) ↔
      UInt64.toNat 9223372036854775808 * UInt64.toNat 10000 <
        deviation 9223372036854775809 9223372036854775808 * 10000 :=
  (@price_band_exact_iff wideBand 0 "alice" "BTC-USD" _ _
    ⟨maxU64, 10000⟩ _ (by decide) rfl (by decide) (by decide) rfl).mpr
      (by decide)

/-- The price `u64::MAX` lies inside the band and is refused. -/
theorem price_band_saturates :
    ¬ ∀ (risk : RiskChecker) (now : UInt64) (traderId marketId : String)
      (priceTicks sizeLots : UInt64) (market : MarketRiskConfig)
      (reference : UInt64), risk.isFull traderId now = false →
      risk.config.markets.get? marketId = some market →
      sizeLots ≤ market.maxOrderSizeLots → 0 < market.priceBandBps →
      risk.referencePrices.get? marketId = some reference →
        (IsOutsideBand (risk.check now traderId marketId priceTicks sizeLots) ↔
          reference.toNat * market.priceBandBps.toNat <
            deviation priceTicks reference * 10000) := by
  intro h
  have hexact := h wideBand 0 "alice" "BTC-USD" maxU64 1 ⟨maxU64, 10000⟩
    9223372036854775808 (by decide) rfl (by decide) (by decide) rfl
  have hrefused : IsOutsideBand
      (wideBand.check 0 "alice" "BTC-USD" maxU64 1) :=
    (isOutsideBand_iff (by decide) rfl (by decide) (by decide) rfl).mpr
      (by decide +kernel)
  exact absurd (hexact.mp hrefused) (by decide +kernel)

end RiskChecker

end ClobApi
