import ClobApi.Guarantees.Limits
import ClobApi.Guarantees.Submissions

/-!
# The risk limits of what is accepted

The risk checker stands in front of the engine, under another lock, and the
submissions it lets through reach the engine in any order, or not at all.  What
the log accepts keeps its limits all the same.
-/

namespace ClobApi

open Foundation

/-! ## The checker in a run -/

/-- The risk checker's clock, where the action makes it look at it. -/
def ServiceAction.reading? : ServiceAction → Option UInt64
  | .receive (.postOrder post) => some post.riskNowMs
  | _ => none

def riskReadings (labels : List (Nat × ServiceAction)) : List UInt64 :=
  labels.filterMap fun label => label.2.reading?

def readingsOf (traderId : String) (posts : List PostOrder) : List UInt64 :=
  (posts.filter fun post => post.signed.traderId = traderId).map
    PostOrder.riskNowMs

def PostOrder.WithinSize (config : RiskConfig) (post : PostOrder) : Prop :=
  ∀ market, config.markets.get? post.signed.marketId.value = some market →
    post.signed.sizeLots ≤ market.maxOrderSizeLots

theorem riskReadings_append (labels : List (Nat × ServiceAction))
    (label : Nat × ServiceAction) :
    riskReadings (labels ++ [label]) =
      riskReadings labels ++ label.2.reading?.toList := by
  unfold riskReadings
  rw [List.filterMap_append]
  cases hreading : label.2.reading? <;> simp [hreading]

theorem readingsOf_append (traderId : String) (posts : List PostOrder)
    (post : PostOrder) :
    readingsOf traderId (posts ++ [post]) = readingsOf traderId posts ++
      if post.signed.traderId = traderId then [post.riskNowMs] else [] := by
  unfold readingsOf
  rw [List.filter_append, List.map_append]
  by_cases htrader : post.signed.traderId = traderId <;> simp [htrader]

namespace RiskChecker

theorem updateReferencePrices_windows (risk : RiskChecker)
    (fills : List Fill) :
    (SharedState.updateReferencePrices risk fills).config = risk.config ∧
      (SharedState.updateReferencePrices risk fills).windows =
        risk.windows := by
  unfold SharedState.updateReferencePrices
  induction fills generalizing risk with
  | nil => exact ⟨rfl, rfl⟩
  | cons fill fills ih => exact ih _

theorem check_ok {risk risk' : RiskChecker} {now : UInt64}
    {traderId marketId : String} {priceTicks sizeLots : UInt64}
    (h : risk.check now traderId marketId priceTicks sizeLots = .ok risk') :
    risk' = risk.recordSubmission traderId now ∧
      risk.isFull traderId now = false ∧
      ∀ market, risk.config.markets.get? marketId = some market →
        sizeLots ≤ market.maxOrderSizeLots := by
  have hanswer := risk.check_answer now traderId marketId priceTicks sizeLots
  rw [h] at hanswer
  cases hanswer with
  | recorded room market =>
      refine ⟨rfl, room, fun config hfound => ?_⟩
      unfold checkMarket at market
      rw [hfound] at market
      dsimp only at market
      split at market
      · cases market
      · next hsize => exact UInt64.not_lt.mp hsize

end RiskChecker

namespace Service

variable {crypto : Crypto} {s s' : Service} {config : RiskConfig}
  {labels : List (Nat × ServiceAction)}

/-- The submissions that the checker has let through, and its state after. -/
structure Vetted (config : RiskConfig)
    (labels : List (Nat × ServiceAction)) (s : Service)
    (posts : List PostOrder) : Prop where
  credited : Credited posts fun i post =>
    (s.servings i).submission? = some post
  sameConfig : s.risk.config = config
  withinSize : ∀ post ∈ posts, post.WithinSize config
  tracks : (riskReadings labels).Pairwise (· ≤ ·) →
    RiskChecker.Tracks s.risk config (riskReadings labels)
      fun traderId => readingsOf traderId posts

theorem Vetted.skip {posts : List PostOrder} (h : s.Vetted config labels posts)
    {label : Nat × ServiceAction}
    (hsubmission : ∀ i, (s'.servings i).submission? =
      (s.servings i).submission?)
    (hconfig : s'.risk.config = s.risk.config)
    (hwindows : s'.risk.windows = s.risk.windows) :
    s'.Vetted config (labels ++ [label]) posts where
  credited := h.credited.congr fun i post => by rw [hsubmission i]
  sameConfig := hconfig.trans h.sameConfig
  withinSize := h.withinSize
  tracks hforward := by
    rw [riskReadings_append] at hforward ⊢
    exact (h.tracks (List.pairwise_append.mp hforward).1).skip s'.risk _
      hconfig hwindows

theorem Vetted.pass {posts : List PostOrder} (h : s.Vetted config labels posts)
    {i : Nat} {post : PostOrder} {risk : RiskChecker}
    (hidle : s.servings i = .idle)
    (hcheck : riskCheck s.risk post = .ok risk) (work : Work) :
    ((s.withRisk risk).move i (.entered (.postOrder post) work)).Vetted config
      (labels ++ [(i, .receive (.postOrder post))]) (posts ++ [post]) := by
  obtain ⟨rfl, hroom, hsize⟩ := RiskChecker.check_ok hcheck
  refine ⟨h.credited.append (i := i) (fun other => ?_) (fun other => ?_)
    (fun j other hj => ?_), h.sameConfig, fun other hother => ?_,
    fun hforward => ?_⟩
  · simp [hidle, Serving.submission?]
  · simp [move, withRisk, Serving.submission?, HttpRequest.post?, eq_comm]
  · simp [move, withRisk, Function.update_of_ne hj]
  · rcases List.mem_append.mp hother with hold | hnew
    · exact h.withinSize other hold
    · obtain rfl := List.mem_singleton.mp hnew
      rw [← h.sameConfig]
      exact hsize
  · rw [riskReadings_append] at hforward ⊢
    obtain ⟨hbefore, -, hnow⟩ := List.pairwise_append.mp hforward
    have hlatest : ∀ r ∈ riskReadings labels,
        r.toNat ≤ post.riskNowMs.toNat := fun r hr =>
      UInt64.le_iff_toNat_le.mp (hnow r hr post.riskNowMs (by
        simp [ServiceAction.reading?]))
    have hrecord := (h.tracks hbefore).record hlatest hroom
    simp only [readingsOf_append]
    exact hrecord

theorem Vetted.step {label : Nat × ServiceAction}
    (h : ∃ posts, s.Vetted config labels posts)
    (hstep : Step crypto s label s') :
    ∃ posts, s'.Vetted config (labels ++ [label]) posts := by
  obtain ⟨posts, h⟩ := h
  obtain ⟨i, action⟩ := label
  have hmove := step_move hstep.2
  have hkeep : (s'.servings i).submission? = (s.servings i).submission? →
      ∀ j, (s'.servings j).submission? = (s.servings j).submission? := by
    intro hsame j
    by_cases hj : j = i
    · rw [hj, hsame]
    · rw [hmove.servings_of_ne hj]
  cases hmove with
  | turnAway serving refused =>
      refine ⟨posts, h.skip (hkeep ?_) rfl rfl⟩
      simp [move, serving, Serving.submission?]
  | @enter http risk work serving admitted =>
      by_cases hpost : ∃ post, http = .postOrder post
      · obtain ⟨post, rfl⟩ := hpost
        rw [vet_postOrder] at admitted
        cases hcheck : riskCheck s.risk post with
        | error error => simp [hcheck] at admitted
        | ok risk' =>
            simp only [hcheck, Except.ok.injEq, Prod.mk.injEq] at admitted
            obtain ⟨rfl, rfl⟩ := admitted
            exact ⟨posts ++ [post], h.pass serving hcheck _⟩
      · have hother : ∀ post, http ≠ .postOrder post :=
          fun post hhttp => hpost ⟨post, hhttp⟩
        obtain rfl := vet_other hother admitted
        refine ⟨posts, h.skip (hkeep ?_) rfl rfl⟩
        simp only [move, withRisk, Function.update_self, serving]
        cases http with
        | postOrder post => exact absurd rfl (hother post)
        | _ => rfl
  | lock serving waits stepped | deliver serving stepped
  | rollback serving stepped => exact ⟨posts, h.skip (fun _ => rfl) rfl rfl⟩
  | work serving holds stepped =>
      refine ⟨posts, h.skip (hkeep ?_) rfl rfl⟩
      simp only [move, withServer, Function.update_self, serving]
      exact submission?_afterWork _ _
  | @update http result serving =>
      obtain ⟨hconfig, hwindows⟩ :=
        RiskChecker.updateReferencePrices_windows s.risk result.fills
      refine ⟨posts, h.skip (hkeep ?_) hconfig hwindows⟩
      simp [move, withRisk, serving, Serving.submission?]

theorem Step.run_vetted {e : Engine} {adminKey : String}
    (h : Run (Step crypto) (start e (.new config) adminKey) labels s) :
    ∃ posts, s.Vetted config labels posts := by
  induction h with
  | start =>
      refine ⟨[], .nil fun i post => ?_, rfl, by simp, fun _ => ?_⟩
      · simp [start, Serving.submission?]
      · exact RiskChecker.tracks_new config
  | next _ hstep ih => exact Vetted.step ih hstep

theorem submission?_of_placed? {serving : Serving} {id : OrderId}
    (h : serving.placed? = some id) :
    ∃ post, serving.submission? = some post := by
  unfold Serving.placed? at h
  split at h
  · exact ⟨_, rfl⟩
  · exact ⟨_, rfl⟩
  · exact ⟨_, rfl⟩
  · cases h

end Service

theorem readingsOf_subperm {posts posts' : List PostOrder}
    (h : posts.Subperm posts') (traderId : String) :
    (readingsOf traderId posts).Subperm (readingsOf traderId posts') := by
  obtain ⟨same, hsame, hwithin⟩ :=
    h.filter fun post => post.signed.traderId = traderId
  exact ⟨same.map _, hsame.map _, hwithin.map _⟩

/--
In every run of the REST server from a new risk checker the orders that the log
has accepted since the start are those of as many handlers' submissions.  None
is larger than its market allows.  If the clock of the checker does not go back,
no interval as long as its window holds the submissions of more accepted orders
of one trader than the limit, whatever the handlers interleave.
-/
theorem risk_limits_hold {crypto : Crypto} {ops : List Op} {e : Engine}
    {config : RiskConfig} {adminKey : String} {s : Service}
    {labels : List (Nat × ServiceAction)}
    (hstart : Run (Step crypto) .new ops e)
    (h : Run (Service.Step crypto) (.start e (.new config) adminKey)
      labels s) :
    ∃ new posters, accepted s.server.engine.log = accepted e.log ++ new ∧
      List.Forall₂ (s.PostedBy crypto) new posters ∧
      (posters.map Prod.fst).Nodup ∧
      (∀ order ∈ new, ∀ market,
        config.markets.get? order.marketId.value = some market →
          order.origSizeLots ≤ market.maxOrderSizeLots) ∧
      ((riskReadings labels).Pairwise (· ≤ ·) → ∀ traderId first last,
        last ≤ first + config.windowMs.toNat →
          ((readingsOf traderId (posters.map Prod.snd)).filter fun t =>
            first ≤ t.toNat ∧ t.toNat ≤ last).length ≤
              config.maxOrdersPerWindow.toNat) := by
  obtain ⟨ops, hengine⟩ := Service.Step.run_engine hstart h
  obtain ⟨new, hnew, hposted, hcredited⟩ := Service.Step.run_credits h
  obtain ⟨posts, hvetted⟩ := Service.Step.run_vetted h
  have hnodup := (Step.run_inv hengine).legal.nodup_newIds hnew
  obtain ⟨posters, hpairs, hdistinct, hwithin⟩ :=
    hcredited.partners hvetted.credited fun i id hplaced =>
      Service.submission?_of_placed? hplaced
  refine ⟨new, posters, hnew, ?_, hdistinct, fun order horder => ?_,
    fun hforward traderId first last hwidth => ?_⟩
  · -- the handler that is credited with the order is the one that posted it
    rw [List.forall₂_map_left_iff, List.forall₂_iff_zip] at hpairs
    refine List.forall₂_iff_zip.mpr ⟨hpairs.1, fun {order poster} hpair => ?_⟩
    obtain ⟨hplaced, hsubmission⟩ := hpairs.2 hpair
    obtain ⟨⟨i, post⟩, hby⟩ := hposted order (List.of_mem_zip hpair).1
    obtain rfl : i = poster.1 := hcredited.unique hnodup hby.placed hplaced
    obtain rfl : post = poster.2 :=
      Option.some.inj (hby.submission.symm.trans hsubmission)
    exact hby
  · obtain ⟨⟨i, post⟩, hby⟩ := hposted order horder
    have hsize := hvetted.withinSize post (hvetted.credited.mem hby.submission)
    have hmarket : order.marketId = post.signed.marketId :=
      congrArg Order.marketId hby.asks
    have hlots : order.origSizeLots = post.signed.sizeLots :=
      congrArg Order.origSizeLots hby.asks
    rw [hmarket, hlots]
    exact hsize
  · have hadmitted := ((hvetted.tracks hforward).admitted
      traderId).length_within_le hwidth
    exact Nat.le_trans
      ((readingsOf_subperm hwithin traderId).filter _).length_le hadmitted

namespace Sample

def strictConfig : RiskConfig :=
  ⟨1, 1000, (HashMap.empty.insert "BTC-USD" ⟨10, 0⟩)⟩

def strictService : Service :=
  .start (after [.addMarket market]) (.new strictConfig) "key"

/-- The bid is submitted again while its first submission is on its way. -/
def hurried : List (Nat × ServiceAction) :=
  [(0, .receive (.postOrder ⟨ask, 2000, askEnv⟩)),
    (1, .receive (.postOrder ⟨bid, 2000, bidEnv⟩)),
    (2, .receive (.postOrder ⟨bid, 2500, bidAgainEnv⟩))] ++
    serves 1 2 ++ serves 0 3

end Sample

theorem risk_limits_hold_hurried :
    ∃ s new posters, Run (Service.Step Sample.crypto) Sample.strictService
        Sample.hurried s ∧
      accepted s.server.engine.log = new ∧ new.length = 2 ∧
      List.Forall₂ (s.PostedBy Sample.crypto) new posters ∧
      ((readingsOf Sample.bid.traderId (posters.map Prod.snd)).filter fun t =>
        2000 ≤ t.toNat ∧ t.toNat ≤ 3000).length ≤ 1 := by
  have hstate : (Sample.strictService.runAll Sample.crypto
      Sample.hurried).map (fun s =>
        (accepted s.server.engine.log).length) = some 2 := by
    decide +kernel
  obtain ⟨s, hs, hlength⟩ := Option.map_eq_some_iff.mp hstate
  have hrun := Service.runAll_run hs
  obtain ⟨new, posters, hnew, hposted, -, -, hlimit⟩ :=
    risk_limits_hold Sample.opened_run hrun
  have hall : accepted s.server.engine.log = new :=
    hnew.trans (List.nil_append _)
  refine ⟨s, new, posters, hrun, hall, hall ▸ hlength, hposted, ?_⟩
  exact hlimit (by decide) Sample.bid.traderId 2000 3000 (by decide)

end ClobApi
