import ClobApi.Api.Views

/-!
# What Postgres holds

The table is a prefix of the log as long as no handler stores events ahead of
earlier ones and none gives up events that no other handler is going to store;
then nothing is missing once every handler has finished.
-/

namespace ClobApi

open Foundation

/-! ## Windows of the log -/

section Window

variable {log : List SequencedEvent} {k lo hi : Nat}

theorem stores_take (h : rows.Numbered log) (hk : k ≤ log.length) (n : Nat) :
    PgStore.Stores (log.take k) n ↔ 0 < n ∧ n ≤ k := by
  have htake := (h.take k).mem_tail 0 n
  rwa [List.drop_zero, List.length_take_of_le hk] at htake

theorem mem_window (h : rows.Numbered log) (hhi : hi ≤ log.length) (n : Nat) :
    (∃ se ∈ (log.take hi).drop lo, se.seqId = n) ↔ lo < n ∧ n ≤ hi := by
  have hwindow := (h.take hi).mem_tail lo n
  rwa [List.length_take_of_le hhi] at hwindow

theorem appendEvents_window (h : rows.Numbered log) (hlo : lo ≤ k)
    (hk : k ≤ log.length) (hhi : hi ≤ log.length) :
    PgStore.appendEvents (log.take k) ((log.take hi).drop lo) =
      log.take (max k hi) := by
  rcases Nat.le_total hi k with hle | hle
  · rw [Nat.max_eq_left hle]
    refine PgStore.appendEvents_of_stores fun se hse =>
      (stores_take h hk _).mpr ?_
    have hwindow := (mem_window h hhi se.seqId).mp ⟨se, hse, rfl⟩
    omega
  have htake : (log.take hi).take k = log.take k := by
    rw [List.take_take, Nat.min_eq_left hle]
  have hsplit :
      (log.take hi).drop lo = (log.take k).drop lo ++ (log.take hi).drop k := by
    rw [← htake,
      Rendering.window_append hlo (by rwa [List.length_take_of_le hhi])]
  have hold : ∀ se ∈ (log.take k).drop lo,
      PgStore.Stores (log.take k) se.seqId :=
    fun se hse => ⟨se, List.mem_of_mem_drop hse, rfl⟩
  have hnew : ∀ se ∈ (log.take hi).drop k,
      ¬ PgStore.Stores (log.take k) se.seqId := by
    intro se hse hstores
    have hlt := ((mem_window h hhi se.seqId).mp ⟨se, hse, rfl⟩).1
    have hle := ((stores_take h hk se.seqId).mp hstores).2
    omega
  have hascending := (h.take hi).pairwise.sublist (List.drop_sublist k _)
  rw [Nat.max_eq_right hle, hsplit, PgStore.appendEvents_append,
    PgStore.appendEvents_of_stores hold,
    PgStore.appendEvents_of_new hnew hascending, ← htake, List.take_append_drop]

end Window

/-! ## In order -/

section InOrder

variable {i : Nat} {act : Act SequencedEvent}
  {t t' : Shipping Nat SequencedEvent SequencedEvent (List SequencedEvent)}

/-- Everything before a stored event is stored with it or before it. -/
def LeavesNoHole (act : Act SequencedEvent)
    (sink : List SequencedEvent) : Prop :=
  ∀ events, act = .put events → ∀ se ∈ events, ∀ n, 0 < n → n < se.seqId →
    PgStore.Stores sink n ∨ ∃ earlier ∈ events, earlier.seqId = n

theorem LeavesNoHole.window {log : List SequencedEvent} {k lo hi : Nat}
    (h : LeavesNoHole (.put ((log.take hi).drop lo)) (log.take k))
    (hlog : rows.Numbered log) (hk : k ≤ log.length) (hhi : hi ≤ log.length) :
    ∃ k' ≤ log.length,
      PgStore.appendEvents (log.take k) ((log.take hi).drop lo) =
        log.take k' := by
  by_cases hempty : (log.take hi).drop lo = []
  · exact ⟨k, hk, by rw [hempty]; rfl⟩
  obtain ⟨se, hse⟩ := List.exists_mem_of_ne_nil _ hempty
  have hseq := (mem_window hlog hhi se.seqId).mp ⟨se, hse, rfl⟩
  have hlo : lo ≤ k := by
    rcases Nat.eq_zero_or_pos lo with rfl | hpos
    · exact Nat.zero_le k
    · rcases h _ rfl se hse lo hpos hseq.1 with hstores | hearlier
      · exact ((stores_take hlog hk lo).mp hstores).2
      · exact absurd ((mem_window hlog hhi lo).mp hearlier).1 (Nat.lt_irrefl lo)
  exact ⟨max k hi, Nat.max_le.mpr ⟨hk, hhi⟩,
    appendEvents_window hlog hlo hk hhi⟩

/-- The table is a prefix of the log, and the copies are windows of the log. -/
structure StoresLog
    (t : Shipping Nat SequencedEvent SequencedEvent (List SequencedEvent)) :
    Prop where
  sink : ∃ k ≤ t.log.length, t.sink = t.log.take k
  window : ∀ i events, t.debts i = .batch events →
    ∃ lo hi, hi ≤ t.log.length ∧ events = (t.log.take hi).drop lo

theorem StoresLog.append (h : StoresLog t) (new : List SequencedEvent) :
    StoresLog { t with log := t.log ++ new } where
  sink := by
    obtain ⟨k, hk, hsink⟩ := h.sink
    exact ⟨k, hk.trans (by simp),
      by rw [List.take_append_of_le_length hk, hsink]⟩
  window := by
    intro i events hdebt
    obtain ⟨lo, hi, hhi, hevents⟩ := h.window i events hdebt
    exact ⟨lo, hi, hhi.trans (by simp),
      by rw [List.take_append_of_le_length hhi, hevents]⟩

theorem StoresLog.update (h : StoresLog t) {debt : Debt SequencedEvent}
    (hdebt : ∀ events, debt = .batch events →
      ∃ lo hi, hi ≤ t.log.length ∧ events = (t.log.take hi).drop lo) :
    StoresLog { t with debts := Function.update t.debts i debt } where
  sink := h.sink
  window := by
    intro j events hj
    by_cases hji : j = i
    · subst hji
      simp only [Function.update_self] at hj
      exact hdebt events hj
    · simp only [Function.update_of_ne hji] at hj
      exact h.window j events hj

theorem StoresLog.step (hstores : StoresLog t) (h : Ship table i act t t')
    (hlog : rows.Numbered t.log) (hhole : LeavesNoHole act t.sink) :
    StoresLog t' := by
  have hempty : ∀ events : List SequencedEvent, Debt.batch [] = .batch events →
      ∃ lo hi, hi ≤ t.log.length ∧ events = (t.log.take hi).drop lo := by
    rintro _ ⟨⟩
    exact ⟨0, 0, Nat.zero_le _, rfl⟩
  cases h with
  | rest => exact hstores
  | append new clear =>
      have htail : ∀ events : List SequencedEvent,
          Debt.tail t.log.length = .batch events →
          ∃ lo hi, hi ≤ t.log.length ∧ events = (t.log.take hi).drop lo := nofun
      exact (hstores.update htail).append new
  | @copy t seen behind =>
      refine hstores.update ?_
      rintro _ ⟨⟩
      exact ⟨seen, t.log.length, Nat.le_refl _,
        by rw [List.take_length]; exact renderAll_rows _⟩
  | @put t chunk rest copied =>
      obtain ⟨lo, hi, hhi, hitems⟩ := hstores.window i _ copied
      obtain ⟨k, hk, hsink⟩ := hstores.sink
      have hchunk :
          chunk = (t.log.take (min (lo + chunk.length) hi)).drop lo := by
        have htake := congrArg (List.take chunk.length) hitems
        rwa [List.take_left, List.take_drop, List.take_take] at htake
      have hrest : rest = (t.log.take hi).drop (lo + chunk.length) := by
        have hdrop := congrArg (List.drop chunk.length) hitems
        rwa [List.drop_left, List.drop_drop] at hdrop
      have hkept : ∀ events, Debt.batch rest = .batch events →
          ∃ lo hi, hi ≤ t.log.length ∧ events = (t.log.take hi).drop lo := by
        rintro _ ⟨⟩
        exact ⟨_, hi, hhi, hrest⟩
      have hupdate := hstores.update (i := i) hkept
      refine { window := hupdate.window, sink := ?_ }
      change ∃ k ≤ t.log.length,
        PgStore.appendEvents t.sink chunk = t.log.take k
      rw [hsink] at hhole ⊢
      rw [hchunk] at hhole ⊢
      exact hhole.window hlog hk ((Nat.min_le_right _ _).trans hhi)
  | leave new empty => exact (hstores.update hempty).append new
  | fail copied => exact hstores.update hempty

end InOrder

/-! ## The table in a run of the server -/

namespace Server

/-- The numbers of the rows are those of a prefix of the log. -/
def StoredPrefix (s : Server) : Prop :=
  ∃ k ≤ s.engine.log.length, ∀ n, PgStore.Stores s.stored n ↔ 0 < n ∧ n ≤ k

def StoredAll (s : Server) : Prop :=
  ∀ se ∈ s.engine.log, PgStore.Stores s.stored se.seqId

/--
A fresh server accepts what the table holds, and misses only the end of the log.
-/
structure Recovers (s : Server) : Prop where
  accepted : ∀ (shuffle : Shuffle Order) (e : Engine),
    (e.restoreFromEvents shuffle (PgStore.loadAllEvents s.stored)).2 = .ok ()
  isPrefix : PgStore.loadAllEvents s.stored <+: s.engine.log

section Steps

variable (crypto : Crypto)

/--
A step that commits no event ahead of an earlier one, and by which a handler
gives up only what is stored or another handler is still going to store.
-/
structure PersistStep (s : Server) (label : Nat × Action)
    (s' : Server) : Prop where
  step : Server.Step crypto s label s'
  noHole : LeavesNoHole (s.storeAct crypto label.1 label.2) s.stored
  giveUp : (s.storeAct crypto label.1 label.2).GivesUp →
    Covered table 0 label.1 s.storing s'.engine.log.length

structure PrefixStep (s : Server) (label : Nat × Action)
    (s' : Server) : Prop where
  step : Server.Step crypto s label s'
  stored : s'.StoredPrefix

end Steps

variable {crypto : Crypto} {ops : List Op} {e : Engine}
  {labels : List (Nat × Action)} {s s' : Server}

theorem start_storesLog (e : Engine) : StoresLog (start e).storing where
  sink := ⟨e.log.length, Nat.le_refl _, (List.take_length).symm⟩
  window := by
    rintro i _ ⟨⟩
    exact ⟨0, 0, Nat.zero_le _, rfl⟩

theorem start_accounted (hlog : rows.Numbered e.log) :
    AccountedFor table 0 (start e).storing := by
  intro n hpos hn
  have htail := (hlog.mem_tail 0 n).mpr ⟨hpos, hn⟩
  exact .inl (by rwa [List.drop_zero] at htail)

theorem PersistStep.run_stores (hstart : Run (ClobApi.Step crypto) .new ops e)
    (h : Run (PersistStep crypto) (start e) labels s) :
    StoresLog s.storing ∧ AccountedFor table 0 s.storing := by
  induction h with
  | start =>
      have hlogged : (start e).Logged := Step.run_logged hstart .start
      exact ⟨start_storesLog e, start_accounted hlogged.numbered⟩
  | next hrun hstep ih =>
      have hlogged := Step.run_logged hstart (hrun.mono fun _ _ _ h => h.step)
      have hship := hstep.step.storing hlogged
      exact ⟨ih.1.step hship hlogged.numbered hstep.noHole,
        (hship.accounted_iff hlogged.numbered 0).mpr ⟨ih.2, hstep.giveUp⟩⟩

theorem Logged.recovers (h : s.Logged) (hstores : StoresLog s.storing) :
    s.Recovers := by
  obtain ⟨k, -, hsink⟩ := hstores.sink
  have hload : PgStore.loadAllEvents s.stored = s.engine.log.take k := by
    change s.stored = _ at hsink
    rw [hsink]
    exact PgStore.loadAllEvents_of_sorted
      ((h.numbered.take k).pairwise.imp Nat.le_of_lt)
  refine ⟨fun shuffle e => ?_, hload ▸ List.take_prefix _ _⟩
  obtain ⟨orders, -, hreplay⟩ := (h.legal.take k).replay_ok shuffle
  rw [hload]
  unfold Engine.restoreFromEvents
  split
  · rfl
  · rw [hreplay]

theorem Logged.storedPrefix (h : s.Logged) (hstores : StoresLog s.storing) :
    s.StoredPrefix := by
  obtain ⟨k, hk, hsink⟩ := hstores.sink
  change s.stored = _ at hsink
  exact ⟨k, hk, fun n => by rw [hsink]; exact stores_take h.numbered hk n⟩

theorem Logged.storedAll_iff (h : s.Logged) (hfinished : s.AllFinished) :
    s.StoredAll ↔ AccountedFor table 0 s.storing := by
  constructor
  · intro hall n hpos hn
    obtain ⟨se, hse, rfl⟩ := (h.numbered.mem_tail 0 n).mpr ⟨hpos, hn⟩
    exact .inl (hall se hse)
  · intro haccounted se hse
    have hseq := (h.numbered.mem_tail 0 se.seqId).mp ⟨se, hse, rfl⟩
    exact haccounted.holds hfinished.storing hseq.1 hseq.2

theorem PrefixStep.noHole {label : Nat × Action}
    (h : PrefixStep crypto s label s') (hlogged : s.Logged) :
    LeavesNoHole (s.storeAct crypto label.1 label.2) s.stored := by
  intro events hact se hse n hpos hlt
  have hship := h.step.storing hlogged
  rw [hact] at hship
  have hstored : s'.stored = PgStore.appendEvents s.stored events :=
    hship.sink_put
  obtain ⟨k, -, hk⟩ := h.stored
  have hse' : PgStore.Stores s'.stored se.seqId := by
    rw [hstored, PgStore.stores_appendEvents]
    exact .inr ⟨se, hse, rfl⟩
  have hle := ((hk se.seqId).mp hse').2
  have hn := (hk n).mpr ⟨hpos, by omega⟩
  rwa [hstored, PgStore.stores_appendEvents] at hn

theorem PrefixStep.run_persist (hstart : Run (ClobApi.Step crypto) .new ops e)
    (h : Run (PrefixStep crypto) (start e) labels s)
    (haccounted : AccountedFor table 0 s.storing) :
    Run (PersistStep crypto) (start e) labels s := by
  induction h with
  | start => exact .start
  | next hrun hstep ih =>
      have hlogged := Step.run_logged hstart (hrun.mono fun _ _ _ h => h.step)
      obtain ⟨hbefore, hcovered⟩ :=
        ((hstep.step.storing hlogged).accounted_iff hlogged.numbered 0).mp
          haccounted
      exact (ih hbefore).next ⟨hstep.step, hstep.noHole hlogged, hcovered⟩

/--
In runs whose steps commit no event ahead of an earlier one and give up no event
that no other handler is going to store, the table is always a prefix of the log
that a fresh server accepts, and all of the log once every handler has finished.
A run with a step that does otherwise has a hole in the table or ends without an
event of the log.
-/
theorem table_isPrefix (hstart : Run (ClobApi.Step crypto) .new ops e) :
    (Run (PersistStep crypto) (start e) labels s →
      s.StoredPrefix ∧ s.Recovers ∧ (s.AllFinished → s.StoredAll)) ∧
    (Run (PrefixStep crypto) (start e) labels s → s.AllFinished → s.StoredAll →
      Run (PersistStep crypto) (start e) labels s) := by
  constructor
  · intro h
    have hlogged := Step.run_logged hstart (h.mono fun _ _ _ h => h.step)
    obtain ⟨hstores, haccounted⟩ := PersistStep.run_stores hstart h
    exact ⟨hlogged.storedPrefix hstores, hlogged.recovers hstores,
      fun hfinished => (hlogged.storedAll_iff hfinished).mpr haccounted⟩
  · intro h hfinished hall
    have hlogged := Step.run_logged hstart (h.mono fun _ _ _ h => h.step)
    exact PrefixStep.run_persist hstart h
      ((hlogged.storedAll_iff hfinished).mp hall)

end Server

/-! ## Two handlers -/

namespace Sample

open Server

def fresh : Server := .start (after [.addMarket market])

theorem fresh_run : Run (ClobApi.Step crypto) .new [.addMarket market]
    (after [.addMarket market]) :=
  .next .start ⟨trivial, rfl⟩

def proceeds (i steps : Nat) : List (Nat × Action) :=
  .replicate steps (i, .proceed)

/--
The second handler holds the engine lock when the first one tries to persist.
-/
def lostBatch : List (Nat × Action) :=
  (0, .lock (.postOrder ask askEnv)) :: proceeds 0 6 ++
    (1, .lock (.postOrder bid bidEnv)) :: proceeds 0 1 ++ proceeds 1 12

/--
The second handler copies before the first one commits, and commits after it.
-/
def keptBatches : List (Nat × Action) :=
  (0, .lock (.postOrder ask askEnv)) :: proceeds 0 8 ++
    (1, .lock (.postOrder bid bidEnv)) :: proceeds 1 11 ++
    proceeds 0 1 ++ proceeds 1 1

theorem lostBatch_stored :
    (fresh.runAll crypto (fun _ => true) lostBatch).map (fun s =>
      (s.stored.map SequencedEvent.seqId, s.engine.log.map SequencedEvent.seqId,
        (Engine.new.restoreFromEvents .id
          (PgStore.loadAllEvents s.stored)).2)) =
      some ([2, 3], [1, 2, 3], .error (.unknownOrder ⟨"ask"⟩)) := by
  decide +kernel

def rowsInOrder (s : Server) : Bool :=
  s.stored.map SequencedEvent.seqId == List.range' 1 s.stored.length &&
    s.stored.length ≤ s.engine.log.length

theorem keptBatches_stored :
    (fresh.runAll crypto rowsInOrder keptBatches).map (fun s =>
      (s.stored.map SequencedEvent.seqId, s.engine.log.map SequencedEvent.seqId,
        keptBatches.all fun label => (s.handlers label.1).isDone)) =
      some ([1, 2, 3], [1, 2, 3], true) := by
  decide +kernel

end Sample

namespace Server

theorem stores_iff (table : List SequencedEvent) (n : Nat) :
    PgStore.Stores table n ↔ n ∈ table.map SequencedEvent.seqId :=
  List.mem_map.symm

theorem table_hole :
    ∃ s, Run (Server.Step Sample.crypto) Sample.fresh Sample.lostBatch s ∧
      ¬ s.StoredPrefix ∧ ¬ s.StoredAll ∧
      (Engine.new.restoreFromEvents .id (PgStore.loadAllEvents s.stored)).2 =
        .error (.unknownOrder ⟨"ask"⟩) := by
  obtain ⟨s, hs, hresult⟩ := Option.map_eq_some_iff.mp Sample.lostBatch_stored
  simp only [Prod.mk.injEq] at hresult
  obtain ⟨hstored, hlog, hrestore⟩ := hresult
  refine ⟨s, (runAll_run hs).mono fun _ _ _ h => h.1, ?_,
    fun hall => ?_, hrestore⟩
  · rintro ⟨k, -, hk⟩
    simp only [stores_iff, hstored] at hk
    have htwo := (hk 2).mp (by simp)
    have hone := (hk 1).mpr (by omega)
    simp at hone
  · have hmem : 1 ∈ s.engine.log.map SequencedEvent.seqId := by simp [hlog]
    obtain ⟨se, hse, hseq⟩ := List.mem_map.mp hmem
    have hstores := hall se hse
    rw [stores_iff, hstored, hseq] at hstores
    simp at hstores

theorem storedPrefix_of_check {s : Server} (h : Sample.rowsInOrder s = true) :
    s.StoredPrefix := by
  simp only [Sample.rowsInOrder, Bool.and_eq_true, beq_iff_eq,
    decide_eq_true_eq] at h
  refine ⟨s.stored.length, h.2, fun n => ?_⟩
  rw [stores_iff, h.1, List.mem_range'_1]
  omega

theorem table_isPrefix_two :
    ∃ s, Run (PersistStep Sample.crypto) Sample.fresh Sample.keptBatches s ∧
      s.stored.map SequencedEvent.seqId = [1, 2, 3] ∧ s.Recovers := by
  obtain ⟨s, hs, hresult⟩ := Option.map_eq_some_iff.mp Sample.keptBatches_stored
  simp only [Prod.mk.injEq] at hresult
  obtain ⟨hstored, hlog, hdone⟩ := hresult
  have hrun := runAll_run hs
  have hfinished : s.AllFinished :=
    Step.run_allFinished (hrun.mono fun _ _ _ h => h.1)
      (List.all_eq_true.mp hdone)
  have hall : s.StoredAll := by
    intro se hse
    rw [stores_iff, hstored, ← hlog]
    exact List.mem_map_of_mem hse
  have hpersist := (table_isPrefix Sample.fresh_run).2
    (hrun.mono fun _ _ _ h => ⟨h.1, storedPrefix_of_check h.2⟩) hfinished hall
  exact ⟨s, hpersist, hstored,
    ((table_isPrefix Sample.fresh_run).1 hpersist).2.1⟩

end Server

end ClobApi
