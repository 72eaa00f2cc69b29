import ClobApi.Engine.Acceptance

/-!
# The idempotency table

The live table grows with every acceptance, recovery scans the log for it.  Both
hold one entry for each accepted pair of trader and client order id, because no
pair is accepted twice.
-/

namespace ClobApi

open Foundation

/-! ## What the log says about a pair -/

structure Original where
  seqId : Nat
  orderId : OrderId
  orderHash : OrderHash
  deriving DecidableEq, Repr

def IdempotencyRecord.original (record : IdempotencyRecord) : Original :=
  ⟨record.originalSeqId, record.orderId, record.orderHash⟩

def OrderResult.original (result : OrderResult) : Original :=
  ⟨result.seqId, result.orderId, result.orderHash⟩

def Order.idempotencyKey (order : Order) : IdempotencyKey :=
  ⟨order.traderId, order.clientOrderId⟩

def SignedOrder.idempotencyKey (signed : SignedOrder) : IdempotencyKey :=
  ⟨signed.traderId, signed.clientOrderId⟩

def originals (log : List SequencedEvent) : List (IdempotencyKey × Original) :=
  log.filterMap fun se => se.event.accepts.map fun order =>
    (order.idempotencyKey, ⟨se.seqId, order.orderId, order.orderHash⟩)

/-- The table has an entry for exactly the accepted pairs. -/
def Remembers (idempotency : HashMap IdempotencyKey IdempotencyRecord)
    (log : List SequencedEvent) : Prop :=
  ∀ key original,
    (idempotency.get? key).map IdempotencyRecord.original = some original ↔
      (key, original) ∈ originals log

theorem originals_append (log : List SequencedEvent) (se : SequencedEvent) :
    originals (log ++ [se]) = originals log ++
      (se.event.accepts.map fun order =>
        (order.idempotencyKey,
          (⟨se.seqId, order.orderId, order.orderHash⟩ : Original))).toList := by
  cases h : se.event.accepts <;> simp [originals, h]

theorem LegalLog.originals_eq {strict : Prop} {log : List SequencedEvent}
    (h : LegalLog strict log) :
    originals log = (accepted log).map fun order =>
      (order.idempotencyKey,
        ⟨order.createdSequence, order.orderId, order.orderHash⟩) := by
  induction h with
  | nil => rfl
  | append timestampMs init last ih =>
      rw [originals_append, accepted_append, List.map_append, ih]
      cases last with
      | orderAccepted fresh status unfilled positive created =>
          simp [Event.accepts, created]
      | _ => rfl

/-! ## Adding one entry -/

section Remembers

variable {idempotency : HashMap IdempotencyKey IdempotencyRecord}
  {log log' : List SequencedEvent}

theorem Remembers.fresh (h : Remembers idempotency log) {key : IdempotencyKey}
    (hnone : idempotency.get? key = none) :
    key ∉ (originals log).map Prod.fst := by
  intro hmem
  obtain ⟨⟨key', original⟩, hpair, rfl⟩ := List.mem_map.mp hmem
  have hsome := (h _ _).mpr hpair
  simp [hnone] at hsome

theorem Remembers.insert (h : Remembers idempotency log) {key : IdempotencyKey}
    {record : IdempotencyRecord} (hfresh : key ∉ (originals log).map Prod.fst)
    (hlog : originals log' = originals log ++ [(key, record.original)]) :
    Remembers (idempotency.insert key record) log' := by
  intro key' original
  rw [hlog, List.mem_append, List.mem_singleton, ← h, HashMap.get?_insert]
  split
  · next hkey =>
      subst hkey
      have hnone : (idempotency.get? key').map IdempotencyRecord.original ≠
          some original := by
        rw [Ne, h]
        exact fun hmem => hfresh (List.mem_map_of_mem hmem)
      simp [hnone, eq_comm]
  · next hkey => simp [hkey]

/-- Recovery finds every pair once, so no later entry replaces an earlier. -/
theorem rememberAccepted_remembers
    (hnodup : ((originals log).map Prod.fst).Nodup) :
    Remembers (log.foldl Sequencer.rememberAccepted .empty) log := by
  induction log using List.reverseRecOn with
  | nil => exact fun key original => by simp [originals]
  | append_singleton log se ih =>
      rw [originals_append, List.map_append, List.nodup_append] at hnodup
      obtain ⟨hinit, -, hnew⟩ := hnodup
      rw [List.foldl_append, List.foldl_cons, List.foldl_nil]
      have hlog := originals_append log se
      unfold Sequencer.rememberAccepted
      cases hev : se.event with
      | orderAccepted order =>
          simp only [hev, Event.accepts] at hlog hnew
          exact (ih hinit).insert (fun hmem =>
            hnew _ hmem order.idempotencyKey (by simp) rfl) hlog
      | _ =>
          simp only [hev, Event.accepts, Option.map_none, Option.toList_none,
            List.append_nil] at hlog
          intro key original
          rw [hlog]
          exact ih hinit key original

end Remembers

/-! ## Every step -/

structure Engine.AtMostOnce (e : Engine) : Prop where
  nodup : ((originals e.log).map Prod.fst).Nodup
  remembers : Remembers e.sequencer.idempotency e.log

section Step

variable {crypto : Crypto} {e : Engine} {ops : List Op}

theorem idempotency_apply {op : Op}
    (hop : ∀ shuffle events, op ≠ .restoreFromEvents shuffle events) :
    (e.apply crypto op).1.sequencer.idempotency =
      match e.acceptance crypto op with
      | none => e.sequencer.idempotency
      | some (_, order) =>
          e.sequencer.idempotency.insert order.idempotencyKey
            ⟨order.createdSequence, order.orderId, order.orderHash,
              order.acceptedAtMs⟩ := by
  cases op with
  | addMarket config => rfl
  | processOrder signed env =>
      by_cases hsubmits : Engine.Submits crypto e signed env
      · rw [Engine.acceptance_of_submits hsubmits]
        cases hbook : e.books.get? signed.marketId.value with
        | none =>
            simp only [Engine.apply, hsubmits.panics hbook]
            rfl
        | some book =>
            obtain ⟨e', hdone, hexecuted⟩ := hsubmits.completes hbook rfl rfl
            simp only [Engine.apply, hdone]
            exact hexecuted.tables.idempotency
      · rw [Engine.acceptance_of_not_submits hsubmits]
        simp only [Engine.apply, (Engine.processOrder_rejects hsubmits).1]
  | processCancel orderId traderId wall =>
      exact (processCancel_tables e orderId traderId wall).idempotency
  | pauseMarket marketId triggeredBy wall =>
      exact switchMarket_idempotency e marketId _ _ _ wall
  | resumeMarket marketId triggeredBy wall =>
      exact switchMarket_idempotency e marketId _ _ _ wall
  | cancelAllOrders marketId wall =>
      exact (cancelAllOrders_tables e marketId wall).idempotency
  | restoreFromEvents shuffle events => exact absurd rfl (hop _ _)

theorem restoreFromEvents_idempotency (e : Engine) (shuffle : Shuffle Order)
    (h : Remembers e.sequencer.idempotency e.log)
    (hnodup : ((originals e.log).map Prod.fst).Nodup) :
    Remembers (e.restoreFromEvents shuffle e.log).1.sequencer.idempotency
      e.log := by
  unfold Engine.restoreFromEvents
  split
  · exact h
  · split
    · exact h
    · exact rememberAccepted_remembers hnodup

theorem atMostOnce_apply (h : e.AtMostOnce) (hinv : e.Inv False False noOrder)
    {op : Op} (hstep : Step crypto e op (e.apply crypto op).1) :
    (e.apply crypto op).1.AtMostOnce := by
  have hinv' : (e.apply crypto op).1.Inv False False noOrder :=
    apply_inv hinv hstep.1 nofun nofun
  have hlog : originals (e.apply crypto op).1.log = originals e.log ++
      ((e.acceptance crypto op).map fun (_, order) =>
        (order.idempotencyKey,
          (⟨order.createdSequence, order.orderId, order.orderHash⟩ :
            Original))).toList := by
    rw [hinv'.legal.originals_eq, hinv.legal.originals_eq,
      Engine.accepted_apply hstep.1, List.map_append]
    cases e.acceptance crypto op <;> rfl
  by_cases hrestore : ∃ shuffle events, op = .restoreFromEvents shuffle events
  · obtain ⟨shuffle, events, rfl⟩ := hrestore
    obtain rfl : events = e.log := hstep.1
    have hsame : (e.apply crypto (.restoreFromEvents shuffle e.log)).1.log =
        e.log := restoreFromEvents_log e shuffle
    refine ⟨by rw [hsame]; exact h.nodup, ?_⟩
    rw [hsame]
    exact restoreFromEvents_idempotency e shuffle h.remembers h.nodup
  · have hidempotency : (e.apply crypto op).1.sequencer.idempotency = _ :=
      idempotency_apply fun shuffle events hop =>
        hrestore ⟨shuffle, events, hop⟩
    cases haccept : e.acceptance crypto op with
    | none =>
        rw [haccept, Option.map_none, Option.toList_none,
          List.append_nil] at hlog
        rw [haccept] at hidempotency
        refine ⟨by rw [hlog]; exact h.nodup, fun key original => ?_⟩
        rw [hidempotency, hlog]
        exact h.remembers key original
    | some new =>
        rw [haccept] at hidempotency hlog
        obtain ⟨signed, env, -, hsubmits, rfl⟩ :=
          Engine.acceptance_eq_some.mp haccept
        have hfresh : signed.idempotencyKey ∉
            (originals e.log).map Prod.fst :=
          h.remembers.fresh hsubmits.unseen
        refine ⟨?_, ?_⟩
        · rw [hlog, List.map_append, List.nodup_append]
          refine ⟨h.nodup, List.nodup_singleton _, fun a ha b hb => ?_⟩
          obtain rfl := List.mem_singleton.mp hb
          rintro rfl
          exact hfresh ha
        · rw [hidempotency]
          exact h.remembers.insert hfresh hlog

theorem Step.run_atMostOnce (h : Run (Step crypto) .new ops e) :
    e.AtMostOnce := by
  induction h with
  | start => exact ⟨.nil, fun key original => by simp [originals, Engine.new,
      Engine.log, Sequencer.new]⟩
  | next hrun hstep ih =>
      obtain ⟨hadmits, rfl⟩ := hstep
      exact atMostOnce_apply ih (Step.run_inv hrun) ⟨hadmits, rfl⟩

theorem processOrder_duplicate {signed : SignedOrder} {env : CallEnv}
    {result : OrderResult}
    (hok : (e.processOrder crypto signed env).2 = .ok result)
    (hduplicate : result.isDuplicate = true) :
    (e.processOrder crypto signed env).1 = e ∧
      ∃ record, e.sequencer.idempotency.get? signed.idempotencyKey =
          some record ∧ result = e.duplicateResult record := by
  by_cases hsubmits : Engine.Submits crypto e signed env
  · cases hbook : e.books.get? signed.marketId.value with
    | none => simp [hsubmits.panics hbook] at hok
    | some book =>
        obtain ⟨e', hdone, -⟩ := hsubmits.completes hbook rfl rfl
        rw [hdone] at hok
        cases hok
        cases hduplicate
  · obtain ⟨hsame, -, hanswer⟩ := Engine.processOrder_rejects hsubmits
    exact ⟨hsame, hanswer result hok⟩

end Step

/--
No pair is accepted twice, the live table and the recovered one hold the
accepted pairs, and a duplicate repeats the first answer and changes nothing.
-/
theorem at_most_once {crypto : Crypto} {ops : List Op} {e : Engine}
    (h : Run (Step crypto) .new ops e) :
    ((originals e.log).map Prod.fst).Nodup ∧
      Remembers e.sequencer.idempotency e.log ∧
      (∀ resumeFromSeqId, Remembers
        (Sequencer.resume resumeFromSeqId e.log).idempotency e.log) ∧
      ∀ signed env result,
        (e.processOrder crypto signed env).2 = .ok result →
        result.isDuplicate = true →
          (signed.idempotencyKey, result.original) ∈ originals e.log ∧
            (e.processOrder crypto signed env).1 = e := by
  obtain ⟨hnodup, hremembers⟩ := Step.run_atMostOnce h
  refine ⟨hnodup, hremembers, fun _ => rememberAccepted_remembers hnodup,
    fun signed env result hok hduplicate => ?_⟩
  obtain ⟨hsame, record, hrecord, rfl⟩ := processOrder_duplicate hok hduplicate
  exact ⟨(hremembers _ _).mp (by rw [hrecord]; rfl), hsame⟩

theorem Sample.traded_at_most_once :
    ((originals (after (recovering traded)).log).map Prod.fst).Nodup ∧
      (⟨ask.traderId, ask.clientOrderId⟩, ⟨1, ⟨"ask"⟩, ⟨askHash⟩⟩) ∈
        originals (after (recovering traded)).log ∧
      ((after (recovering traded)).processOrder crypto ask bidEnv).1 =
        after (recovering traded) := by
  obtain ⟨hnodup, -, -, hduplicate⟩ :=
    at_most_once (recovering_run (traded_run.mono fun _ _ _ h => h.1))
  have hok : ((after (recovering traded)).processOrder crypto ask bidEnv).2 =
      .ok ⟨⟨"ask"⟩, ⟨askHash⟩, 1, [], .partiallyFilled, true⟩ := by
    decide +kernel
  obtain ⟨hmem, hsame⟩ := hduplicate _ _ _ hok rfl
  exact ⟨hnodup, hmem, hsame⟩

end ClobApi
