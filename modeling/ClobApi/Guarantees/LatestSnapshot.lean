import ClobApi.SnapshotFiles

/-!
# The latest snapshot of a directory

A file with another extension is passed over, but the first `*.json` file that
is no snapshot ends the search with no answer.  Without such a file the answer
is the first of the files with the largest number, however the numeral is
written.
-/

namespace ClobApi

open Foundation

/--
The answer is the file that `snapshot_path` names by the largest number, and
there is none only if there is no such file.
-/
structure FindsLatest (files : List FileName)
    (answer : Option FileName) : Prop where
  found : ∀ file, answer = some file →
    ∃ n, file = snapshotPath n ∧ file ∈ files ∧
      ∀ m, snapshotPath m ∈ files → m ≤ n
  missing : answer = none ↔ ∀ n, snapshotPath n ∉ files

/-- A `*.json` file whose name the loop cannot read as that of a snapshot. -/
def Stops (path : FileName) : Prop :=
  isJson path = true ∧ snapshotSeq path = none

def snapshotsIn (files : List FileName) : List (UInt64 × FileName) :=
  files.filterMap fun path =>
    if isJson path then (snapshotSeq path).map fun seq => (seq, path) else none

/--
A file that `snapshot_path` would name otherwise stands behind one with at least
its number, or before one with a larger number.
-/
def OddNamesOutdone (files : List FileName) : Prop :=
  ∀ before n path after, snapshotsIn files = before ++ (n, path) :: after →
    path ≠ snapshotPath n →
      (∃ other ∈ before, n ≤ other.1) ∨ ∃ other ∈ after, n < other.1

section Scan

variable {files : List FileName} {n : UInt64} {path : FileName}

theorem mem_snapshotsIn : (n, path) ∈ snapshotsIn files ↔
    path ∈ files ∧ isJson path = true ∧ snapshotSeq path = some n := by
  simp only [snapshotsIn, List.mem_filterMap, Option.ite_none_right_eq_some,
    Option.map_eq_some_iff, Prod.mk.injEq]
  constructor
  · rintro ⟨file, hfile, hjson, seq, hseq, rfl, rfl⟩
    exact ⟨hfile, hjson, hseq⟩
  · rintro ⟨hfile, hjson, hseq⟩
    exact ⟨path, hfile, hjson, n, hseq, rfl, rfl⟩

theorem snapshotPath_mem_snapshotsIn (h : snapshotPath n ∈ files) :
    (n, snapshotPath n) ∈ snapshotsIn files :=
  mem_snapshotsIn.mpr ⟨h, snapshotPath_parts n⟩

/-! ## The loop -/

theorem considerFile_stops (best : Option (UInt64 × FileName))
    (h : Stops path) : considerFile best path = none := by
  simp [considerFile, h.1, h.2]

theorem considerFile_continues (best : Option (UInt64 × FileName))
    (h : ¬ Stops path) : ∃ best', considerFile best path = some best' := by
  unfold considerFile
  cases hjson : isJson path with
  | false => exact ⟨best, rfl⟩
  | true =>
      cases hseq : snapshotSeq path with
      | none => exact absurd ⟨hjson, hseq⟩ h
      | some seq => exact ⟨_, rfl⟩

theorem foldlM_stops (h : ∃ path ∈ files, Stops path)
    (best : Option (UInt64 × FileName)) :
    files.foldlM considerFile best = none := by
  induction files generalizing best with
  | nil => simp at h
  | cons file files ih =>
      rw [List.foldlM_cons]
      by_cases hfile : Stops file
      · rw [considerFile_stops best hfile]
        rfl
      · obtain ⟨best', hbest⟩ := considerFile_continues best hfile
        rw [hbest]
        refine ih ?_ best'
        obtain ⟨path, hmem, hstops⟩ := h
        rcases List.mem_cons.mp hmem with rfl | hmem
        · exact absurd hstops hfile
        · exact ⟨path, hmem, hstops⟩

def numberOf (entry : UInt64 × FileName) : Nat := entry.1.toNat

theorem numberOf_lt {entry entry' : UInt64 × FileName} :
    numberOf entry < numberOf entry' ↔ entry.1 < entry'.1 :=
  UInt64.lt_iff_toNat_lt.symm

theorem numberOf_le {entry entry' : UInt64 × FileName} :
    numberOf entry ≤ numberOf entry' ↔ entry.1 ≤ entry'.1 :=
  UInt64.le_iff_toNat_le.symm

theorem foldlM_argmax (h : ∀ path ∈ files, ¬ Stops path) :
    files.foldlM considerFile none =
      some ((snapshotsIn files).argmax numberOf) := by
  induction files using List.reverseRecOn with
  | nil => rfl
  | append_singleton files path ih =>
      have hpath := h path (by simp)
      rw [List.foldlM_append, ih fun file hfile => h file (by simp [hfile])]
      cases hjson : isJson path with
      | false => simp [snapshotsIn, considerFile, hjson]
      | true =>
          cases hseq : snapshotSeq path with
          | none => exact absurd ⟨hjson, hseq⟩ hpath
          | some seq =>
              have hlist : snapshotsIn (files ++ [path]) =
                  snapshotsIn files ++ [(seq, path)] := by
                simp [snapshotsIn, hjson, hseq]
              rw [hlist, List.argmax_concat]
              cases (snapshotsIn files).argmax numberOf with
              | none => simp [considerFile, hjson, hseq]
              | some best =>
                  have hlarger : numberOf best < numberOf (seq, path) ↔
                      best.1 < seq := numberOf_lt
                  by_cases hlt : best.1 < seq
                  · simp [considerFile, hjson, hseq, hlt, hlarger.mpr hlt]
                  · simp [considerFile, hjson, hseq, hlt, mt hlarger.mp hlt]

/-! ## The whole search -/

theorem findLatestSnapshot_eq (files : List FileName) :
    findLatestSnapshot (some (files.map some)) =
      files.foldlM considerFile none >>= fun best => best.map Prod.snd := by
  have hread : (files.map some).reduceOption = files :=
    List.filterMap_map.trans List.filterMap_some
  simp only [findLatestSnapshot, Option.bind_eq_bind, Option.bind_some, hread]

theorem findLatestSnapshot_stops (h : ∃ path ∈ files, Stops path) :
    findLatestSnapshot (some (files.map some)) = none := by
  rw [findLatestSnapshot_eq, foldlM_stops h]
  rfl

theorem findLatestSnapshot_eq_some (h : ∀ path ∈ files, ¬ Stops path) :
    findLatestSnapshot (some (files.map some)) = some path ↔
      ∃ n, (n, path) ∈ (snapshotsIn files).argmax numberOf := by
  rw [findLatestSnapshot_eq, foldlM_argmax h]
  simp

theorem OddNamesOutdone.latest (h : OddNamesOutdone files)
    (hlatest : (n, path) ∈ (snapshotsIn files).argmax numberOf) :
    path = snapshotPath n ∧ path ∈ files ∧
      ∀ m, snapshotPath m ∈ files → m ≤ n := by
  obtain ⟨before, after, hsplit, hbefore, hafter⟩ :=
    mem_argmax_iff_split.mp hlatest
  refine ⟨?_, (mem_snapshotsIn.mp (List.argmax_mem hlatest)).1,
    fun m hm => numberOf_le.mp (List.le_of_mem_argmax
      (snapshotPath_mem_snapshotsIn hm) hlatest)⟩
  by_contra hodd
  obtain ⟨other, hother, hle⟩ | ⟨other, hother, hlt⟩ :=
    h before n path after hsplit hodd
  · exact UInt64.not_le.mpr (numberOf_lt.mp (hbefore other hother)) hle
  · exact UInt64.not_lt.mpr (numberOf_le.mp (hafter other hother)) hlt

theorem OddNamesOutdone.findsLatest (h : OddNamesOutdone files)
    (hreadable : ∀ path ∈ files, ¬ Stops path) :
    FindsLatest files (findLatestSnapshot (some (files.map some))) where
  found := by
    intro file hfile
    obtain ⟨n, hlatest⟩ := (findLatestSnapshot_eq_some hreadable).mp hfile
    exact ⟨n, h.latest hlatest⟩
  missing := by
    constructor
    · intro hnone n hn
      cases hmax : (snapshotsIn files).argmax numberOf with
      | none =>
          have hmem := snapshotPath_mem_snapshotsIn hn
          rw [List.argmax_eq_none.mp hmax] at hmem
          cases hmem
      | some latest =>
          have hsome : findLatestSnapshot (some (files.map some)) =
              some latest.2 :=
            (findLatestSnapshot_eq_some hreadable).mpr ⟨latest.1, hmax⟩
          rw [hnone] at hsome
          cases hsome
    · intro hmissing
      by_contra hsome
      obtain ⟨file, hfile⟩ := Option.ne_none_iff_exists'.mp hsome
      obtain ⟨n, hlatest⟩ := (findLatestSnapshot_eq_some hreadable).mp hfile
      obtain ⟨rfl, hmem, -⟩ := h.latest hlatest
      exact hmissing n hmem

/-- Where `snapshot_path` named every `*.json` file, the search is right. -/
theorem findsLatest_of_written
    (h : ∀ path ∈ files, isJson path = true → ∃ n, path = snapshotPath n) :
    FindsLatest files (findLatestSnapshot (some (files.map some))) := by
  have hseq : ∀ path ∈ files, isJson path = true →
      ∃ n, path = snapshotPath n ∧ snapshotSeq path = some n := by
    intro path hpath hjson
    obtain ⟨n, rfl⟩ := h path hpath hjson
    exact ⟨n, rfl, (snapshotPath_parts n).2⟩
  have hodd : OddNamesOutdone files := by
    intro before n path after hsplit hne
    have hmem : (n, path) ∈ snapshotsIn files := by
      rw [hsplit]
      exact List.mem_append_right _ (.head _)
    obtain ⟨hpath, hjson, hnumber⟩ := mem_snapshotsIn.mp hmem
    obtain ⟨m, hname, hm⟩ := hseq path hpath hjson
    obtain rfl := Option.some.inj (hnumber.symm.trans hm)
    exact absurd hname hne
  refine hodd.findsLatest fun path hpath ⟨hjson, hnone⟩ => ?_
  obtain ⟨n, -, hn⟩ := hseq path hpath hjson
  rw [hn] at hnone
  cases hnone

/--
The search finds the latest snapshot if a file stops it and there is none, or if
no file stops it and every odd name is outdone.
-/
theorem findLatestSnapshot_iff (files : List FileName) :
    FindsLatest files (findLatestSnapshot (some (files.map some))) ↔
      (∃ path ∈ files, Stops path) ∧ (∀ n, snapshotPath n ∉ files) ∨
        (∀ path ∈ files, ¬ Stops path) ∧ OddNamesOutdone files := by
  constructor
  · intro h
    by_cases hstops : ∃ path ∈ files, Stops path
    · exact .inl ⟨hstops, h.missing.mp (findLatestSnapshot_stops hstops)⟩
    · have hreadable : ∀ path ∈ files, ¬ Stops path := fun path hpath hstop =>
        hstops ⟨path, hpath, hstop⟩
      refine .inr ⟨hreadable, fun before n path after hsplit hodd => ?_⟩
      by_contra hbest
      rw [not_or] at hbest
      have hlatest : (n, path) ∈ (snapshotsIn files).argmax numberOf := by
        refine mem_argmax_iff_split.mpr ⟨before, after, hsplit,
          fun other hother => ?_, fun other hother => ?_⟩
        · exact numberOf_lt.mpr (UInt64.not_le.mp fun hle =>
            hbest.1 ⟨other, hother, hle⟩)
        · exact numberOf_le.mpr (UInt64.not_lt.mp fun hlt =>
            hbest.2 ⟨other, hother, hlt⟩)
      obtain ⟨m, rfl, -, -⟩ := h.found path
        ((findLatestSnapshot_eq_some hreadable).mpr ⟨n, hlatest⟩)
      have hseq := (mem_snapshotsIn.mp (List.argmax_mem hlatest)).2.2
      rw [(snapshotPath_parts m).2] at hseq
      exact hodd (congrArg snapshotPath (Option.some.inj hseq))
  · rintro (⟨hstops, hmissing⟩ | ⟨hreadable, hodd⟩)
    · rw [findLatestSnapshot_stops hstops]
      exact ⟨nofun, iff_of_true rfl hmissing⟩
    · exact hodd.findsLatest hreadable

end Scan

/-! ## A snapshot beside a configuration file -/

namespace Sample

def snapshotAndConfig : List FileName :=
  [snapshotPath 10, utf8Bytes "config.json"]

theorem snapshotAndConfig_missed : ¬ FindsLatest snapshotAndConfig
    (findLatestSnapshot (some (snapshotAndConfig.map some))) := by
  intro h
  have hnone : findLatestSnapshot (some (snapshotAndConfig.map some)) = none :=
    by decide +kernel
  exact h.missing.mp hnone 10 (.head _)

end Sample

end ClobApi
