import ClobApi.Engine.Filing

/-!
# The log and the answers

The log grows at its end, numbered from one without a gap.  The answer to a new
order names what its submission has appended, and the status that replay finds.
-/

namespace ClobApi

open Foundation

structure Engine.Answers (e : Engine) (env : CallEnv) (e' : Engine)
    (result : OrderResult) : Prop where
  seqId : result.seqId = e.sequencer.nextSeqId
  block : ∃ order, order.orderId = result.orderId ∧
    order.orderHash = result.orderHash ∧
    e'.log = e.log ++ numbered env.wall result.seqId
      (.orderAccepted order :: (result.fills.map .fill ++
        if result.finalStatus = .cancelledStp then
          [.orderCancelled order.orderId order.orderHash .selfTradePrevention]
        else []))
  status : ∃ progress logged, Replay.walk e'.log = .ok progress ∧
    progress.orders.get? result.orderId = some logged ∧
    logged.status = result.finalStatus

section Replies

variable {crypto : Crypto} {ops : List Op} {e : Engine}

theorem LegalLog.createdSequence_eq {strict : Prop}
    {log : List SequencedEvent} (h : LegalLog strict log) :
    ∀ se ∈ log, ∀ order, se.event = .orderAccepted order →
      order.createdSequence = se.seqId := by
  induction h with
  | nil => simp
  | append timestampMs init last ih =>
      intro se hse order hevent
      rcases List.mem_append.mp hse with hold | hnew
      · exact ih se hold order hevent
      · obtain rfl := List.mem_singleton.mp hnew
        cases last with
        | orderAccepted fresh status unfilled positive created =>
            cases hevent
            exact created
        | _ => cases hevent

theorem Step.run_log {init : Engine} (h : Run (Step crypto) init ops e) :
    ∀ earlier later, ops = earlier ++ later →
      (init.applyAll crypto earlier).log <+: e.log := by
  induction h with
  | start =>
      intro earlier later hops
      obtain ⟨rfl, rfl⟩ := List.append_eq_nil_iff.mp hops.symm
      exact List.prefix_refl _
  | @next ops e op e' hrun hstep ih =>
      intro earlier later hops
      obtain ⟨hadmits, rfl⟩ := hstep
      rcases List.eq_nil_or_concat later with rfl | ⟨later, last, rfl⟩
      · rw [List.append_nil] at hops
        have hend : init.applyAll crypto earlier = (e.apply crypto op).1 := by
          rw [← hops, applyAll_append, ← Step.run_applyAll hrun]
        exact ⟨[], by rw [List.append_nil, hend]⟩
      · rw [List.concat_eq_append, ← List.append_assoc] at hops
        exact (ih earlier later (List.append_inj' hops rfl).1).trans
          (apply_log crypto hadmits)

theorem processOrder_answers (h : e.Inv False False noOrder)
    {signed : SignedOrder} {env : CallEnv} {e' : Engine} {result : OrderResult}
    (hfresh : e.Admits (.processOrder signed env))
    (hinv' : e'.Inv False False noOrder)
    (hdone : e.processOrder crypto signed env = (e', .ok result))
    (hnew : result.isDuplicate = false) : e.Answers env e' result := by
  by_cases hsubmits : Engine.Submits crypto e signed env
  · cases hbook : e.books.get? signed.marketId.value with
    | none =>
        rw [hsubmits.panics hbook] at hdone
        cases hdone
    | some book =>
        obtain ⟨st, hst⟩ : ∃ st, matchOrder book
            (Engine.buildOrder crypto signed env e.sequencer.peekNextSeqId)
            e.sequencer.peekNextSeqId env.nowMs = st := ⟨_, rfl⟩
        obtain ⟨e'', hdone', hexecuted⟩ := hsubmits.completes hbook rfl hst
        obtain ⟨rfl, hresult⟩ := Prod.mk.inj (hdone'.symm.trans hdone)
        cases hresult
        have hmatched := hsubmits.matched h hfresh hbook hst hexecuted
        have hterms := matchOrder_terms book
          (Engine.buildOrder crypto signed env e.sequencer.peekNextSeqId)
          e.sequencer.peekNextSeqId env.nowMs
        rw [hst] at hterms
        have hid := congrArg Order.orderId hterms
        have hhash := congrArg Order.orderHash hterms
        simp only [Order.terms_orderId, Order.terms_orderHash] at hid hhash
        refine ⟨rfl, ⟨_, rfl, rfl, ?_⟩, ?_⟩
        · rw [hexecuted.writes.log, MatchState.events, hid, hhash]
          rfl
        · obtain ⟨progress, hwalk, -⟩ := hinv'.legal.walk_ok
          obtain ⟨logged, hlogged, hcore⟩ := hmatched.logged
          refine ⟨progress, logged, hwalk, ?_, ?_⟩
          · rw [(walk_views hwalk).orders]
            exact hlogged
          · simpa [Order.core] using congrArg Order.status hcore
  · obtain ⟨-, -, hanswer⟩ := Engine.processOrder_rejects hsubmits
    rw [hdone] at hanswer
    obtain ⟨record, -, rfl⟩ := hanswer result rfl
    cases hnew

/--
The log only grows, it counts from one without a gap, and every new order is
answered with the block it has appended and the status that replay finds.
-/
theorem log_and_answers (h : Run (Step crypto) .new ops e) :
    (∀ earlier later, ops = earlier ++ later →
        (Engine.new.applyAll crypto earlier).log <+: e.log) ∧
      e.log.map SequencedEvent.seqId = List.range' 1 e.log.length ∧
      e.sequencer.nextSeqId = e.log.length + 1 ∧
      (∀ se ∈ e.log, ∀ order, se.event = .orderAccepted order →
        order.createdSequence = se.seqId) ∧
      ∀ signed env e' result, e.Admits (.processOrder signed env) →
        e.processOrder crypto signed env = (e', .ok result) →
        result.isDuplicate = false → e.Answers env e' result := by
  have hinv := Step.run_inv h
  refine ⟨Step.run_log h, hinv.legal.seqIds, hinv.next,
    hinv.legal.createdSequence_eq, fun signed env e' result hfresh hdone => ?_⟩
  have hafter : (e.apply crypto (.processOrder signed env)).1 = e' := by
    simp only [Engine.apply, hdone]
  have hinv' := Step.run_inv (.next h ⟨hfresh, hafter⟩)
  exact processOrder_answers hinv hfresh hinv' hdone

end Replies

namespace Sample

def bidResult : OrderResult :=
  ⟨⟨"bid"⟩, ⟨bidHash⟩, 2, [makeFill bidOrder askOrder 100 4 2 2000], .filled,
    false⟩

theorem bid_answers :
    (after [.addMarket market, .processOrder ask askEnv]).Answers bidEnv
      (after traded) bidResult := by
  obtain ⟨-, -, -, -, hanswers⟩ :=
    log_and_answers (asked_run.mono fun _ _ _ h => h.1)
  have hafter : ((after [.addMarket market, .processOrder ask askEnv]).apply
      crypto (.processOrder bid bidEnv)).1 = after traded := rfl
  have hok : ((after [.addMarket market, .processOrder ask askEnv]).processOrder
      crypto bid bidEnv).2 = .ok bidResult := by
    decide +kernel
  simp only [Engine.apply] at hafter
  refine hanswers bid bidEnv (after traded) bidResult (bid_admitted bid) ?_ rfl
  rw [← hafter, ← hok]

end Sample

end ClobApi
