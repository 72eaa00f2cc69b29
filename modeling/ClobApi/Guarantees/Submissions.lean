import ClobApi.Foundation.Credit
import ClobApi.Guarantees.Confirmations

/-!
# Submissions

A client that gets no answer submits its order again, perhaps while the first
submission is still on its way.  However the handlers interleave, the order is
accepted once, one of them is told so, and the others repeat what it was told.
-/

namespace ClobApi

open Foundation

/-! ## The order that a handler has placed -/

/-- A first acceptance is answered so, unless a panic cuts the answer off. -/
def Serving.placed? : Serving → Option OrderId
  | .traded (.postOrder post) result =>
      if result.isDuplicate then none else some post.env.newOrderId
  | .ended (.postOrder post) none => some post.env.newOrderId
  | .ended (.postOrder post) (some ⟨_, .orderAccepted body⟩) =>
      if body.isDuplicate then none else some post.env.newOrderId
  | _ => none

def HttpRequest.post? : HttpRequest → Option PostOrder
  | .postOrder post => some post
  | _ => none

/-- The submission that the handler has taken up. -/
def Serving.submission? : Serving → Option PostOrder
  | .entered http _ | .traded http _ | .ended http _ => http.post?
  | .idle | .turnedAway .. => none

def PostOrder.Asks (crypto : Crypto) (post : PostOrder) (order : Order) :
    Prop :=
  order = Engine.buildOrder crypto post.signed post.env order.createdSequence

/-- The key of a submission that has succeeded, and what its client is told. -/
def Serving.told? : Serving → Option (IdempotencyKey × OrderAcceptedResponse)
  | .ended (.postOrder post) (some ⟨_, .orderAccepted body⟩) =>
      some (post.signed.idempotencyKey, body)
  | _ => none

structure OrderAcceptedResponse.Names (body : OrderAcceptedResponse)
    (order : Order) : Prop where
  orderId : body.orderId = order.orderId.value
  orderHash : body.orderHash = hexEncode order.orderHash.bytes.toList
  seqId : body.seqId = order.createdSequence

section Work

variable {crypto : Crypto} {e : Engine}

theorem placed?_afterWork (post : PostOrder) (result : OrderResult) :
    (Serving.afterWork (.postOrder post) (.ordered result)).placed? =
      if result.isDuplicate then none else some post.env.newOrderId := by
  unfold Serving.afterWork
  dsimp only
  split <;> rfl

theorem placed?_afterWork_other {http : HttpRequest} {verdict : Verdict}
    (hhttp : ∀ post, http ≠ .postOrder post) :
    (Serving.afterWork http verdict).placed? = none := by
  cases http with
  | postOrder post => exact absurd rfl (hhttp post)
  | _ =>
      cases verdict with
      | ordered result =>
          unfold Serving.afterWork
          dsimp only
          split <;> rfl
      | _ => rfl

theorem submission?_afterWork (http : HttpRequest) (verdict : Verdict) :
    (Serving.afterWork http verdict).submission? = http.post? := by
  cases verdict with
  | ordered result =>
      unfold Serving.afterWork
      dsimp only
      split <;> rfl
  | _ => rfl

theorem processOrder_placed {post : PostOrder}
    (hfresh : e.Admits (.processOrder post.signed post.env)) :
    ∃ new, accepted (e.processOrder crypto post.signed post.env).1.log =
        accepted e.log ++ new ∧
      new.map Order.orderId = (Serving.afterWork (.postOrder post) (.ofOrder
        (e.processOrder crypto post.signed post.env).2)).placed?.toList ∧
      ∀ order ∈ new, post.Asks crypto order := by
  have haccepted : accepted
      (e.apply crypto (.processOrder post.signed post.env)).1.log = _ :=
    Engine.accepted_apply hfresh
  simp only [Engine.apply] at haccepted
  by_cases hsubmits : Engine.Submits crypto e post.signed post.env
  · rw [Engine.acceptance_of_submits hsubmits] at haccepted
    refine ⟨_, haccepted, ?_, fun order horder => ?_⟩
    · cases hbook : e.books.get? post.signed.marketId.value with
      | none =>
          rw [hsubmits.panics hbook]
          rfl
      | some book =>
          obtain ⟨e', hdone, -⟩ := hsubmits.completes hbook rfl rfl
          rw [hdone, Verdict.ofOrder, placed?_afterWork]
          rfl
    · obtain rfl := List.mem_singleton.mp horder
      rfl
  · rw [Engine.acceptance_of_not_submits hsubmits] at haccepted
    refine ⟨_, haccepted, ?_, fun order horder => by cases horder⟩
    obtain ⟨-, hpanic, hanswer⟩ := Engine.processOrder_rejects hsubmits
    cases houtcome : (e.processOrder crypto post.signed post.env).2 with
    | ok result =>
        obtain ⟨record, -, rfl⟩ := hanswer result houtcome
        rw [Verdict.ofOrder, placed?_afterWork]
        rfl
    | err error => rfl
    | panic => exact absurd houtcome hpanic

end Work

section Steps

variable {crypto : Crypto} {e : Engine} {s s' : Service}

theorem perform_accepted_other {adminKey : String} {http : HttpRequest}
    {request : Request} (hcalls : http.Calls adminKey request)
    (hhttp : ∀ post, http ≠ .postOrder post)
    (hadmits : ∀ op ∈ request.op e, e.Admits op) :
    accepted (request.perform crypto e).1.log = accepted e.log := by
  have hcall : (request.perform crypto e).1 = (request.call crypto e).1 := by
    rw [Request.call_eq_perform]
  rw [hcall, Request.call]
  cases hop : request.op e with
  | none => rfl
  | some op =>
      have hnone : e.acceptance crypto op = none := by
        cases hcalls with
        | postOrder post => exact absurd rfl (hhttp post)
        | cancelByClientId traderId clientOrderId wall =>
            obtain ⟨record, -, rfl⟩ := Option.map_eq_some_iff.mp hop
            rfl
        | _ =>
            obtain rfl := Option.some.inj hop
            rfl
      have haccepted : accepted (e.apply crypto op).1.log = _ :=
        Engine.accepted_apply (hadmits op hop)
      rw [hnone] at haccepted
      exact haccepted.trans (List.append_nil _)

namespace Service

/-- A step places at most one order, which is new in the log. -/
theorem Effect.placed {i : Nat} {e' : Engine} {serving : Serving}
    {risk : RiskChecker} (h : Effect crypto s i e' serving risk)
    (hfits : s.Fits) (hadmits : s.server.Admits i) :
    (accepted e'.log = accepted s.server.engine.log ∧
      serving.placed? = (s.servings i).placed?) ∨
    ((s.servings i).placed? = none ∧ ∃ new,
      accepted e'.log = accepted s.server.engine.log ++ new ∧
      new.map Order.orderId = serving.placed?.toList ∧
      ∀ order ∈ new, ∃ post, serving.submission? = some post ∧
        post.Asks crypto order) := by
  cases h with
  | turnAway idle refused | enter idle admitted =>
      rw [idle]
      exact .inl ⟨rfl, rfl⟩
  | @work http work entered locked =>
      rw [entered]
      have hi := hfits i
      rw [entered] at hi
      by_cases hpost : ∃ post, http = .postOrder post
      · obtain ⟨post, rfl⟩ := hpost
        cases hi.1
        unfold Server.Admits at hadmits
        rw [locked] at hadmits
        obtain ⟨new, hlog, hids, hasks⟩ := processOrder_placed (hadmits _ rfl)
        exact .inr ⟨rfl, new, hlog, hids, fun order horder =>
          ⟨post, submission?_afterWork _ _, hasks order horder⟩⟩
      · have hhttp : ∀ post, http ≠ .postOrder post :=
          fun post h => hpost ⟨post, h⟩
        refine .inl ⟨?_, placed?_afterWork_other hhttp⟩
        cases work with
        | call request =>
            unfold Server.Admits at hadmits
            rw [locked] at hadmits
            exact perform_accepted_other (HttpRequest.work_eq_call_iff.mp hi.1)
              hhttp hadmits
        | _ => rfl
  | @update http result traded =>
      rw [traded]
      have hi := hfits i
      rw [traded] at hi
      obtain ⟨⟨post, rfl⟩, -⟩ := hi
      exact .inl ⟨rfl, rfl⟩
  | rest => exact .inl ⟨rfl, rfl⟩

structure PostedBy (crypto : Crypto) (s : Service) (order : Order)
    (poster : Nat × PostOrder) : Prop where
  submission : (s.servings poster.1).submission? = some poster.2
  placed : (s.servings poster.1).placed? = some order.orderId
  asks : poster.2.Asks crypto order

/-- The new orders are placed one each by the handlers that have placed one. -/
def Credits (crypto : Crypto) (init : Engine) (s : Service) : Prop :=
  ∃ new, accepted s.server.engine.log = accepted init.log ++ new ∧
    (∀ order ∈ new, ∃ poster, s.PostedBy crypto order poster) ∧
    Credited (new.map Order.orderId) fun i id =>
      (s.servings i).placed? = some id

theorem Effect.submission {i : Nat} {e' : Engine} {serving : Serving}
    {risk : RiskChecker} (h : Effect crypto s i e' serving risk)
    {post : PostOrder} (hpost : (s.servings i).submission? = some post) :
    serving.submission? = some post := by
  cases h with
  | turnAway idle refused | enter idle admitted =>
      rw [idle] at hpost
      cases hpost
  | work entered locked =>
      rw [entered] at hpost
      exact (submission?_afterWork _ _).trans hpost
  | update traded =>
      rw [traded] at hpost
      exact hpost
  | rest => exact hpost

theorem Credits.step {init : Engine} {label : Nat × ServiceAction}
    (h : s.Credits crypto init) (hfits : s.Fits)
    (hstep : Step crypto s label s') : s'.Credits crypto init := by
  obtain ⟨i, action⟩ := label
  obtain ⟨hadmits, hstep⟩ := hstep
  have hmove := step_move hstep
  obtain ⟨new, hlog, hposted, hcredited⟩ := h
  have heffect := hmove.effect hfits
  have hothers : ∀ j id, j ≠ i → ((s'.servings j).placed? = some id ↔
      (s.servings j).placed? = some id) := by
    intro j id hj
    rw [hmove.servings_of_ne hj]
  obtain ⟨hsame, hplaced⟩ | ⟨hnone, added, hgrown, hadded, hasks⟩ :=
    heffect.placed hfits hadmits
  · refine ⟨new, by rw [hsame, hlog], fun order horder => ?_,
      hcredited.congr fun j id => ?_⟩
    · obtain ⟨⟨j, post⟩, hpost, hid, hask⟩ := hposted order horder
      by_cases hj : j = i
      · subst hj
        exact ⟨(j, post), heffect.submission hpost, hplaced.trans hid, hask⟩
      · exact ⟨(j, post), by rwa [hmove.servings_of_ne hj],
          (hothers j _ hj).mpr hid, hask⟩
    by_cases hj : j = i
    · subst hj
      rw [hplaced]
    · exact hothers j id hj
  · refine ⟨new ++ added, by rw [hgrown, hlog, List.append_assoc],
      fun order horder => ?_, ?_⟩
    · rcases List.mem_append.mp horder with hold | hnew
      · obtain ⟨⟨j, post⟩, hpost, hid, hask⟩ := hposted order hold
        have hj : j ≠ i := by
          rintro rfl
          simp [hnone] at hid
        exact ⟨(j, post), by rwa [hmove.servings_of_ne hj],
          (hothers j _ hj).mpr hid, hask⟩
      · obtain ⟨post, hpost, hask⟩ := hasks order hnew
        have hid : order.orderId ∈ (s'.servings i).placed?.toList :=
          hadded ▸ List.mem_map_of_mem hnew
        exact ⟨(i, post), hpost, Option.mem_toList.mp hid, hask⟩
    rw [List.map_append, hadded]
    cases hmade : (s'.servings i).placed? with
    | none =>
        rw [Option.toList_none, List.append_nil]
        refine hcredited.congr fun j id => ?_
        by_cases hj : j = i
        · subst hj
          rw [hmade, hnone]
        · exact hothers j id hj
    | some id =>
        exact hcredited.append (by simp [hnone]) (by simp [hmade, eq_comm])
          hothers

end Service

end Steps

/-! ## Runs of the server -/

section Runs

variable {crypto : Crypto} {s : Service}

theorem Service.Step.run_credits {e : Engine} {risk : RiskChecker}
    {adminKey : String} {labels : List (Nat × ServiceAction)}
    (h : Run (Service.Step crypto) (.start e risk adminKey) labels s) :
    s.Credits crypto e := by
  induction h with
  | start => exact ⟨[], by simp [Service.start, Server.start], by simp,
      .nil fun i id => by simp [Service.start, Serving.placed?]⟩
  | next hrun hstep ih => exact ih.step (Service.Step.run_fits hrun) hstep

theorem Service.Confirms.told (h : s.Confirms crypto) {i : Nat}
    {key : IdempotencyKey} {body : OrderAcceptedResponse}
    (htold : (s.servings i).told? = some (key, body)) :
    ∃ order ∈ accepted s.server.engine.log, order.idempotencyKey = key ∧
      body.Names order ∧ (body.isDuplicate = false →
        (s.servings i).placed? = some order.orderId) := by
  unfold Serving.told? at htold
  split at htold
  · next post statusCode body' hserving =>
      obtain ⟨rfl, rfl⟩ := Prod.mk.inj (Option.some.inj htold)
      have hconfirmed : Confirmed crypto s.server.engine.log (.postOrder post)
          ⟨statusCode, .orderAccepted body'⟩ := by
        refine h i _ _ ?_ rfl rfl
        rw [hserving]
        exact ⟨rfl, rfl⟩
      cases hconfirmed with
      | created booked =>
          obtain ⟨timestampMs, hse⟩ := booked.placed
          refine ⟨_, List.mem_filterMap.mpr ⟨_, hse, rfl⟩, rfl,
            ⟨booked.orderId, booked.orderHash, rfl⟩, fun hfirst => ?_⟩
          simp [Serving.placed?, hserving, hfirst, Engine.buildOrder]
      | @repeated _ _ first repeats =>
          refine ⟨first, repeats.known, ?_, ⟨repeats.orderId,
            repeats.orderHash, repeats.seqId⟩, fun hfirst => ?_⟩
          · simp only [Order.idempotencyKey, SignedOrder.idempotencyKey,
              repeats.traderId, repeats.clientOrderId]
          · rw [repeats.isDuplicate] at hfirst
            cases hfirst
  · cases htold

theorem LegalLog.nodup_newIds {strict : Prop} {log : List SequencedEvent}
    (h : LegalLog strict log) {old new : List Order}
    (hnew : accepted log = old ++ new) : (new.map Order.orderId).Nodup := by
  have hall := h.accepted_pairwise
  rw [hnew] at hall
  exact List.pairwise_map.mpr
    ((List.pairwise_append.mp hall).2.1.imp And.right)

theorem Engine.AtMostOnce.keys {e : Engine} (h : e.AtMostOnce)
    {strict : Prop} (hlegal : LegalLog strict e.log) :
    ((accepted e.log).map Order.idempotencyKey).Nodup := by
  have hnodup := h.nodup
  rw [hlegal.originals_eq, List.map_map] at hnodup
  exact hnodup

end Runs

/--
In every run of the REST server, whatever its handlers interleave, the orders
that the log has accepted since the start are, one for one, the orders of the
submissions that were answered as a first acceptance or cut off by a panic: no
other submission has left an order behind.  No idempotency key is accepted
twice, and all submissions of one key that succeed name the same order, at most
one of them as a first acceptance.
-/
theorem submissions_exactly_once {crypto : Crypto} {ops : List Op} {e : Engine}
    {risk : RiskChecker} {adminKey : String} {s : Service}
    {labels : List (Nat × ServiceAction)}
    (hstart : Run (Step crypto) .new ops e)
    (h : Run (Service.Step crypto) (.start e risk adminKey) labels s) :
    (∃ new, accepted s.server.engine.log = accepted e.log ++ new ∧
      Credited (new.map Order.orderId) fun i id =>
        (s.servings i).placed? = some id) ∧
    ((accepted s.server.engine.log).map Order.idempotencyKey).Nodup ∧
    ∀ key i j body body', (s.servings i).told? = some (key, body) →
      (s.servings j).told? = some (key, body') →
        (∃ order ∈ accepted s.server.engine.log, order.idempotencyKey = key ∧
          body.Names order ∧ body'.Names order) ∧
        (body.isDuplicate = false → body'.isDuplicate = false → i = j) := by
  obtain ⟨ops, hengine⟩ := Service.Step.run_engine hstart h
  have hinv := Step.run_inv hengine
  have hkeys := (Step.run_atMostOnce hengine).keys hinv.legal
  obtain ⟨new, hnew, -, hcredited⟩ := Service.Step.run_credits h
  refine ⟨⟨new, hnew, hcredited⟩, hkeys, ?_⟩
  have hconfirms := Service.Step.run_confirms hstart h
  intro key i j body body' htold htold'
  obtain ⟨order, horder, hkey, hnames, hfirst⟩ := hconfirms.told htold
  obtain ⟨order', horder', hkey', hnames', hfirst'⟩ := hconfirms.told htold'
  -- the key is accepted once, so both answers are about one order
  obtain rfl : order = order' :=
    List.inj_on_of_nodup_map hkeys horder horder' (hkey.trans hkey'.symm)
  refine ⟨⟨order, horder, hkey, hnames, hnames'⟩, fun hone hother => ?_⟩
  exact hcredited.unique (hinv.legal.nodup_newIds hnew) (hfirst hone)
    (hfirst' hother)

namespace Sample

/-- The client submits its bid again and draws another order id. -/
def bidAgainEnv : CallEnv := { bidEnv with newOrderId := ⟨"again"⟩ }

/-- The second submission of the bid overtakes the first one. -/
def resubmitted : List (Nat × ServiceAction) :=
  [(0, .receive (.postOrder ⟨ask, 2000, askEnv⟩)),
    (1, .receive (.postOrder ⟨bid, 2000, bidEnv⟩)),
    (2, .receive (.postOrder ⟨bid, 2000, bidAgainEnv⟩))] ++
    serves 0 2 ++ serves 2 3 ++ serves 1 2

end Sample

theorem submissions_exactly_once_resubmitted :
    ∃ s order, Run (Service.Step Sample.crypto) Sample.openService
        Sample.resubmitted s ∧
      order ∈ accepted s.server.engine.log ∧
      order.idempotencyKey = Sample.bid.idempotencyKey ∧
      (s.servings 1).told?.map (·.2.isDuplicate) = some true ∧
      (s.servings 2).told?.map (·.2.isDuplicate) = some false ∧
      ∀ i body, (s.servings i).told? =
        some (Sample.bid.idempotencyKey, body) → body.Names order := by
  have hstate : (Sample.openService.runAll Sample.crypto
      Sample.resubmitted).map (fun s =>
        ((s.servings 1).told?, (s.servings 2).told?)) =
      some (some (Sample.bid.idempotencyKey, ⟨"again",
          hexEncode Sample.bidHash.toList, .filled, 2, 0, 0, true⟩),
        some (Sample.bid.idempotencyKey, ⟨"again",
          hexEncode Sample.bidHash.toList, .filled, 2, 1, 4, false⟩)) := by
    decide +kernel
  obtain ⟨s, hs, htold⟩ := Option.map_eq_some_iff.mp hstate
  obtain ⟨hfirst, hsecond⟩ := Prod.mk.inj htold
  have hrun := Service.runAll_run hs
  obtain ⟨-, hkeys, honce⟩ := submissions_exactly_once Sample.opened_run hrun
  obtain ⟨⟨order, horder, hkey, -⟩, -⟩ :=
    honce _ _ _ _ _ hfirst hsecond
  refine ⟨s, order, hrun, horder, hkey, by rw [hfirst]; rfl,
    by rw [hsecond]; rfl, fun i body hbody => ?_⟩
  obtain ⟨⟨order', horder', hkey', hnames', -⟩, -⟩ :=
    honce _ _ _ _ _ hbody hsecond
  obtain rfl := List.inj_on_of_nodup_map hkeys horder horder'
    (hkey.trans hkey'.symm)
  exact hnames'

end ClobApi
