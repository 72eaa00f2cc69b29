import ClobApi.Guarantees.LatestSnapshot
import ClobApi.Guarantees.Snapshots
import ClobApi.Guarantees.StoredRows
import ClobApi.SnapshotTask

/-!
# Recovery from the latest snapshot

The task writes a file long after it has let the engine go, and an action that
comes in between does not show in it.  Every file still loads with the state of
one moment of the run, and the latest file with that of the latest of them.
-/

namespace ClobApi

open Foundation

namespace SnapshotTask

variable {crypto : Crypto} {ops : List Op} {e : Engine}
  {s s' : SnapshotTask} {action : SnapshotAction}
  {labels : List SnapshotAction}

/-! ## Steps -/

inductive Move (crypto : Crypto) (s : SnapshotTask) :
    SnapshotAction → SnapshotTask → Prop
  | engine (op : Op) : s.engine.Admits op →
      Move crypto s (.engine op)
        { s with engine := (s.engine.apply crypto op).1 }
  | idle : s.engine.log = [] → Move crypto s .tick s
  | copy : s.copy = none → s.engine.log ≠ [] →
      Move crypto s .tick { s with copy := some (.ofEngine crypto s.engine) }
  | write (nowMs : UInt64) (copy : SnapshotCopy) : s.copy = some copy →
      Move crypto s (.write nowMs)
        { s with
          copy := none
          files := s.files.insert
            (snapshotPath (.ofNat (createSnapshot nowMs copy.events
              copy.markets copy.checksum).snapshotSeq))
            (Snapshot.codec.encode
              (createSnapshot nowMs copy.events copy.markets copy.checksum)) }
  | fail : Move crypto s .fail { s with copy := none }

theorem Step.move (h : Step crypto s action s') : s.Move crypto action s' := by
  obtain ⟨hadmits, hstep⟩ := h
  unfold step at hstep
  split at hstep
  · obtain rfl := Option.some.inj hstep
    exact .engine _ hadmits
  · next hcopy =>
      split at hstep
      · next hempty =>
          obtain rfl := Option.some.inj hstep
          exact .idle (List.isEmpty_iff.mp hempty)
      · next hempty =>
          obtain rfl := Option.some.inj hstep
          exact .copy hcopy fun hnil => hempty (List.isEmpty_iff.mpr hnil)
  · next copy hcopy =>
      obtain rfl := Option.some.inj hstep
      exact .write _ copy hcopy
  · obtain rfl := Option.some.inj hstep
    exact .fail
  · cases hstep

theorem Move.log (h : s.Move crypto action s') :
    s.engine.log <+: s'.engine.log := by
  cases h with
  | engine op hadmits => exact apply_log crypto hadmits
  | _ => exact List.prefix_refl _

theorem Step.run_engine (hstart : Run (ClobApi.Step crypto) .new ops e)
    (h : Run (Step crypto) (start e) labels s) :
    ∃ ops', Run (ClobApi.Step crypto) .new ops' s.engine := by
  induction h with
  | start => exact ⟨ops, hstart⟩
  | next _ hstep ih =>
      obtain ⟨ops', hrun⟩ := ih
      cases hstep.move with
      | engine op hadmits => exact ⟨_, hrun.next ⟨hadmits, rfl⟩⟩
      | _ => exact ⟨ops', hrun⟩

/-! ## Where copies and files come from -/

/-- The run has gone through a moment with this engine and a log to save. -/
structure Past (crypto : Crypto) (e : Engine) (labels : List SnapshotAction)
    (s t : SnapshotTask) : Prop where
  reached : ∃ before, before <+: labels ∧ Run (Step crypto) (start e) before t
  log_ne : t.engine.log ≠ []
  grown : t.engine.log <+: s.engine.log

theorem Past.step {t : SnapshotTask} (h : Past crypto e labels s t)
    (hmove : s.Move crypto action s') :
    Past crypto e (labels ++ [action]) s' t := by
  obtain ⟨before, hbefore, hrun⟩ := h.reached
  exact ⟨⟨before, hbefore.trans (List.prefix_append _ _), hrun⟩, h.log_ne,
    h.grown.trans hmove.log⟩

def snapshotOf (crypto : Crypto) (nowMs : UInt64) (e : Engine) : Snapshot :=
  createSnapshot nowMs e.log e.listMarkets (e.state.checksum crypto)

structure Recorded (crypto : Crypto) (e : Engine)
    (labels : List SnapshotAction) (s : SnapshotTask) : Prop where
  copy : ∀ copy, s.copy = some copy →
    ∃ t, Past crypto e labels s t ∧ copy = .ofEngine crypto t.engine
  files : ∀ path json, s.files.get? path = some json →
    ∃ t nowMs, Past crypto e labels s t ∧
      path = snapshotPath
        (.ofNat (snapshotOf crypto nowMs t.engine).snapshotSeq) ∧
      json = Snapshot.codec.encode (snapshotOf crypto nowMs t.engine)
  written : (∃ nowMs, .write nowMs ∈ labels) ↔
    ∃ path, (s.files.get? path).isSome = true

theorem Recorded.step (h : Recorded crypto e labels s)
    (hrun : Run (Step crypto) (start e) labels s)
    (hmove : s.Move crypto action s') :
    Recorded crypto e (labels ++ [action]) s' := by
  have hcopy : ∀ copy, s.copy = some copy → ∃ t,
      Past crypto e (labels ++ [action]) s' t ∧
        copy = .ofEngine crypto t.engine := by
    intro copy hcopy
    obtain ⟨t, hpast, hof⟩ := h.copy copy hcopy
    exact ⟨t, hpast.step hmove, hof⟩
  have hfiles : ∀ path json, s.files.get? path = some json → ∃ t nowMs,
      Past crypto e (labels ++ [action]) s' t ∧
        path = snapshotPath
          (.ofNat (snapshotOf crypto nowMs t.engine).snapshotSeq) ∧
        json = Snapshot.codec.encode (snapshotOf crypto nowMs t.engine) := by
    intro path json hfile
    obtain ⟨t, nowMs, hpast, hpath⟩ := h.files path json hfile
    exact ⟨t, nowMs, hpast.step hmove, hpath⟩
  have hwritten : (∀ nowMs, action ≠ .write nowMs) →
      ((∃ nowMs, .write nowMs ∈ labels ++ [action]) ↔
        ∃ path, (s.files.get? path).isSome = true) := by
    intro hother
    rw [← h.written]
    refine exists_congr fun nowMs => ?_
    simp [(hother nowMs).symm]
  cases hmove with
  | engine op hadmits => exact ⟨hcopy, hfiles, hwritten (by simp)⟩
  | idle hempty => exact ⟨hcopy, hfiles, hwritten (by simp)⟩
  | copy hnone hne =>
      refine ⟨fun copy hnew => ?_, hfiles, hwritten (by simp)⟩
      obtain rfl := Option.some.inj hnew
      exact ⟨s, ⟨⟨labels, List.prefix_append _ _, hrun⟩, hne,
        List.prefix_refl _⟩, rfl⟩
  | write nowMs copy hheld =>
      obtain ⟨t, hpast, rfl⟩ := hcopy copy hheld
      refine ⟨by simp, fun path json hfile => ?_, ?_⟩
      · rw [HashMap.get?_insert] at hfile
        split at hfile
        · next hpath =>
            obtain rfl := Option.some.inj hfile
            exact ⟨t, nowMs, hpast, hpath, rfl⟩
        · exact hfiles path json hfile
      · refine iff_of_true ⟨nowMs, by simp⟩ ⟨snapshotPath
          (.ofNat (snapshotOf crypto nowMs t.engine).snapshotSeq), ?_⟩
        exact Option.isSome_iff_exists.mpr ⟨_, HashMap.get?_insert_self _ _ _⟩
  | fail => exact ⟨by simp, hfiles, hwritten (by simp)⟩

theorem Step.run_recorded (h : Run (Step crypto) (start e) labels s) :
    Recorded crypto e labels s := by
  induction h with
  | start =>
      refine ⟨by simp [start], by simp [start], iff_of_false ?_ ?_⟩
      · rintro ⟨nowMs, ⟨⟩⟩
      · rintro ⟨path, ⟨⟩⟩
  | next hrun hstep ih => exact ih.step hrun hstep.move

end SnapshotTask

/-! ## Loading -/

section Loading

variable {crypto : Crypto} {ops : List Op} {e : Engine}

theorem snapshotOf_seq (h : Run (Step crypto) .new ops e) (nowMs : UInt64) :
    (SnapshotTask.snapshotOf crypto nowMs e).snapshotSeq = e.log.length := by
  have hlegal := (Step.run_inv h).legal
  change (e.log.getLast?.map SequencedEvent.seqId).getD 0 = e.log.length
  rw [← List.getLast?_map, hlegal.seqIds]
  cases e.log.length <;> simp [List.range'_concat, Nat.add_comm]

theorem loadSnapshotFile_encode (h : Run (Step crypto) .new ops e)
    (hsmall : e.log.length < 2 ^ 64) (shuffle : Shuffle Order)
    (nowMs : UInt64) :
    ∃ result, replay shuffle e.log = .ok result ∧
      result.state.Agrees e.state ∧
      loadSnapshotFile crypto shuffle
          (Snapshot.codec.encode (SnapshotTask.snapshotOf crypto nowMs e)) =
        .ok (result, e.listMarkets, e.log.length) := by
  have hseq := snapshotOf_seq h nowMs
  have hfits : Snapshot.codec.Fits (SnapshotTask.snapshotOf crypto nowMs e) :=
    Snapshot.fits (hseq.trans_lt hsmall) (Step.run_eventsFit h hsmall)
  obtain ⟨result, hreplay, hstate, hloads⟩ := snapshot_loads h shuffle nowMs
  refine ⟨result, hreplay, hstate, ?_⟩
  have hsnapshot : loadSnapshot crypto shuffle
        (SnapshotTask.snapshotOf crypto nowMs e) =
      .ok (result, e.listMarkets,
        (SnapshotTask.snapshotOf crypto nowMs e).snapshotSeq) := hloads
  simp only [loadSnapshotFile, Snapshot.codec.decode_encode hfits, hsnapshot,
    hseq]

end Loading

/-! ## The latest file -/

theorem snapshotPath_inj {m n : UInt64} : snapshotPath m = snapshotPath n ↔
    m = n := by
  refine ⟨fun h => ?_, congrArg snapshotPath⟩
  have hm := (snapshotPath_parts m).2
  rw [h, (snapshotPath_parts n).2] at hm
  exact (Option.some.inj hm).symm

namespace SnapshotTask

variable {crypto : Crypto} {ops : List Op} {e : Engine} {s : SnapshotTask}
  {labels : List SnapshotAction}

/-- Every file is named by the length of the log that it restores. -/
theorem Step.run_loads (hstart : Run (ClobApi.Step crypto) .new ops e)
    (h : Run (Step crypto) (start e) labels s)
    (hsmall : s.engine.log.length < 2 ^ 64) (shuffle : Shuffle Order)
    {path : FileName} {json : Json} (hfile : s.files.get? path = some json) :
    ∃ t result, Past crypto e labels s t ∧
      path = snapshotPath (.ofNat t.engine.log.length) ∧
      loadSnapshotFile crypto shuffle json =
        .ok (result, t.engine.listMarkets, t.engine.log.length) ∧
      replay shuffle t.engine.log = .ok result ∧
      result.state.Agrees t.engine.state := by
  obtain ⟨t, nowMs, hpast, hpath, rfl⟩ :=
    (Step.run_recorded h).files path json hfile
  obtain ⟨before, -, hrun⟩ := hpast.reached
  obtain ⟨ops', hengine⟩ := Step.run_engine hstart hrun
  obtain ⟨result, hreplay, hstate, hloads⟩ := loadSnapshotFile_encode hengine
    (hpast.grown.length_le.trans_lt hsmall) shuffle nowMs
  rw [snapshotOf_seq hengine] at hpath
  exact ⟨t, result, hpast, hpath, hloads, hreplay, hstate⟩

end SnapshotTask

/--
In every run of the task beside the engine, `find_latest_snapshot` answers with
a file once one has been written.  The file loads with the replayed log, the
state store and the markets that the engine had together at one moment, and no
other file loads with a later one.
-/
theorem latest_snapshot_recovers {crypto : Crypto} {ops : List Op} {e : Engine}
    {s : SnapshotTask} {labels : List SnapshotAction}
    (hstart : Run (Step crypto) .new ops e)
    (h : Run (SnapshotTask.Step crypto) (.start e) labels s)
    (hsmall : s.engine.log.length < 2 ^ 64) (shuffle : Shuffle Order)
    {names : List FileName}
    (hnames : ∀ path, path ∈ names ↔ (s.files.get? path).isSome = true) :
    (findLatestSnapshot (some (names.map some)) = none ↔
      ∀ nowMs, .write nowMs ∉ labels) ∧
    ∀ path, findLatestSnapshot (some (names.map some)) = some path →
      ∃ json result before t, s.files.get? path = some json ∧
        before <+: labels ∧
        Run (SnapshotTask.Step crypto) (.start e) before t ∧
        t.engine.log <+: s.engine.log ∧
        loadSnapshotFile crypto shuffle json =
          .ok (result, t.engine.listMarkets, t.engine.log.length) ∧
        replay shuffle t.engine.log = .ok result ∧
        result.state.Agrees t.engine.state ∧
        ∀ other json', s.files.get? other = some json' →
          ∃ result' markets' seq', loadSnapshotFile crypto shuffle json' =
              .ok (result', markets', seq') ∧
            seq' ≤ t.engine.log.length := by
  have hloads : ∀ path ∈ names, ∃ json t result,
      s.files.get? path = some json ∧
      SnapshotTask.Past crypto e labels s t ∧
      path = snapshotPath (.ofNat t.engine.log.length) ∧
      loadSnapshotFile crypto shuffle json =
        .ok (result, t.engine.listMarkets, t.engine.log.length) ∧
      replay shuffle t.engine.log = .ok result ∧
      result.state.Agrees t.engine.state := by
    intro path hpath
    obtain ⟨json, hfile⟩ := Option.isSome_iff_exists.mp ((hnames path).mp hpath)
    obtain ⟨t, result, hrest⟩ :=
      SnapshotTask.Step.run_loads hstart h hsmall shuffle hfile
    exact ⟨json, t, result, hfile, hrest⟩
  have hlatest : FindsLatest names
      (findLatestSnapshot (some (names.map some))) := by
    refine findsLatest_of_written fun path hpath _ => ?_
    obtain ⟨json, t, result, -, -, hname, -⟩ := hloads path hpath
    exact ⟨_, hname⟩
  refine ⟨?_, fun path hpath => ?_⟩
  · rw [hlatest.missing, ← not_exists, ← not_exists, not_iff_not,
      (SnapshotTask.Step.run_recorded h).written]
    constructor
    · rintro ⟨n, hn⟩
      exact ⟨_, (hnames _).mp hn⟩
    · rintro ⟨path, hpath⟩
      obtain ⟨json, t, result, -, -, rfl, -⟩ :=
        hloads path ((hnames path).mpr hpath)
      exact ⟨_, (hnames _).mpr hpath⟩
  · obtain ⟨n, rfl, hmem, hmax⟩ := hlatest.found path hpath
    obtain ⟨json, t, result, hfile, hpast, hname, hload, hreplay, hstate⟩ :=
      hloads _ hmem
    obtain ⟨before, hbefore, hrun⟩ := hpast.reached
    refine ⟨json, result, before, t, hfile, hbefore, hrun, hpast.grown, hload,
      hreplay, hstate, fun other json' hother => ?_⟩
    obtain ⟨t', result', hpast', rfl, hload', -⟩ :=
      SnapshotTask.Step.run_loads hstart h hsmall shuffle hother
    refine ⟨result', _, _, hload', ?_⟩
    have hle := hmax _
      ((hnames _).mpr (Option.isSome_iff_exists.mpr ⟨_, hother⟩))
    obtain rfl := snapshotPath_inj.mp hname
    have hlength := hpast.grown.length_le.trans_lt hsmall
    have hlength' := hpast'.grown.length_le.trans_lt hsmall
    rwa [UInt64.le_iff_toNat_le, UInt64.toNat_ofNat_of_lt' hlength',
      UInt64.toNat_ofNat_of_lt' hlength] at hle

theorem SnapshotTask.exists_overtaken_run {crypto : Crypto} {e : Engine}
    {op : Op} (hlog : e.log ≠ []) (hadmits : e.Admits op) (nowMs : UInt64) :
    ∃ s path, Run (Step crypto) (start e) [.tick, .engine op, .write nowMs] s ∧
      s.engine = (e.apply crypto op).1 ∧
      ∀ file, file ∈ [path] ↔ (s.files.get? file).isSome = true := by
  have htick : (start e).step crypto .tick =
      some ⟨e, some (.ofEngine crypto e), .empty⟩ := by
    simp [step, start, hlog]
  refine ⟨_, snapshotPath (.ofNat (snapshotOf crypto nowMs e).snapshotSeq),
    .next (.next (.next .start ⟨trivial, htick⟩) ⟨hadmits, rfl⟩)
      ⟨trivial, rfl⟩, rfl, fun file => ?_⟩
  change _ ↔ ((HashMap.empty.insert _ _).get? file).isSome = true
  rw [HashMap.get?_insert, List.mem_singleton]
  split
  · next hfile => exact iff_of_true hfile rfl
  · next hother => exact iff_of_false hother (by simp)

theorem latest_snapshot_recovers_overtaken :
    ∃ s : SnapshotTask, s.engine = Sample.after Sample.traded ∧
      ∃ path json result, ∃ t : SnapshotTask,
        findLatestSnapshot (some [some path]) = some path ∧
        s.files.get? path = some json ∧
        t.engine.log <+: s.engine.log ∧
        loadSnapshotFile Sample.crypto .id json =
          .ok (result, t.engine.listMarkets, t.engine.log.length) ∧
        replay .id t.engine.log = .ok result := by
  have hlog : Sample.asked.log ≠ [] := by
    rw [Sample.asked, Sample.ask_log]
    exact List.cons_ne_nil _ _
  obtain ⟨s, written, hrun, hengine, hnames⟩ :=
    SnapshotTask.exists_overtaken_run hlog
      (Sample.bid_admitted Sample.bid) 3000
  have hlast : s.engine = Sample.after Sample.traded := hengine.trans rfl
  have hsmall : s.engine.log.length < 2 ^ 64 := by
    rw [hlast, Sample.traded_log.1]
    simp [Sample.tradedLog]
  obtain ⟨hnone, hfound⟩ := latest_snapshot_recovers Sample.asked_stepped
    hrun hsmall .id hnames
  obtain ⟨path, hpath⟩ := Option.ne_none_iff_exists'.mp
    fun h => hnone.mp h 3000 (by simp)
  obtain ⟨json, result, before, t, hfile, -, -, hgrown, hload, hreplay, -⟩ :=
    hfound path hpath
  have hmem := (hnames path).mpr (Option.isSome_iff_exists.mpr ⟨_, hfile⟩)
  obtain rfl := List.mem_singleton.mp hmem
  exact ⟨s, hlast, path, json, result, t, hpath, hfile, hgrown, hload, hreplay⟩

end ClobApi
