import ClobApi.Domain.CanonicalBytes
import ClobApi.Foundation.Split

/-!
# The snapshot files of a directory

A file name is a list of bytes, as `OsStr` holds it.  All paths lie in the
directory that is scanned, so they are known by their file names.
-/

namespace ClobApi

open Foundation

abbrev FileName := List UInt8

/-! ## What the standard library does with a name -/

def dot : UInt8 := 46

/-- `rsplit_file_at_dot` of `std::path`: a dot in front is part of the name. -/
def rsplitFileAtDot (file : FileName) : Option FileName × Option FileName :=
  if file = utf8Bytes ".." then (some file, none)
  else
    match rsplitOnce dot file with
    | none => (none, some file)
    | some ([], _) => (some file, none)
    | some (before, after) => (some before, some after)

def fileExtension (file : FileName) : Option FileName :=
  let (before, after) := rsplitFileAtDot file
  before.bind fun _ => after

def fileStem (file : FileName) : Option FileName :=
  let (before, after) := rsplitFileAtDot file
  before.or after

/-- `OsStr::to_str` -/
def toStr (bytes : FileName) : Option String :=
  String.fromUTF8? ⟨bytes.toArray⟩

/-- `str::strip_prefix` -/
def stripPrefix (s start : String) : Option (List Char) :=
  s.toList.dropPrefix? start.toList

/-- `str::parse::<u64>`: one plus sign and leading zeros are accepted. -/
def parseU64 (s : List Char) : Option UInt64 :=
  let digits :=
    match s with
    | '+' :: rest => rest
    | _ => s
  let value := Nat.ofDigitChars 10 digits 0
  if digits ≠ [] ∧ digits.all Char.isDigit ∧ value < UInt64.size then
    some (.ofNat value)
  else none

/-! ## Finding the latest file -/

/-- The name that `snapshot_path` joins to the directory. -/
def snapshotPath (seqId : UInt64) : FileName :=
  utf8Bytes ("snapshot_" ++ toString seqId.toNat ++ ".json")

def isJson (path : FileName) : Bool :=
  (fileExtension path).bind toStr == some "json"

/-- The number in the name.  Each failure is a `?` of the loop body. -/
def snapshotSeq (path : FileName) : Option UInt64 := do
  let stem ← fileStem path
  let stem ← toStr stem
  let digits ← stripPrefix stem "snapshot_"
  parseU64 digits

/--
The loop body of `find_latest_snapshot`.  A `continue` keeps the best file so
far, a `?` answers `none` and leaves the function.
-/
def considerFile (best : Option (UInt64 × FileName)) (path : FileName) :
    Option (Option (UInt64 × FileName)) :=
  if !isJson path then some best
  else do
    let seq ← snapshotSeq path
    return if best.all fun (s, _) => seq > s then some (seq, path) else best

/--
`read_dir` fails or yields the entries of the directory in some order; those
that cannot be read are left out.
-/
def findLatestSnapshot (entries : Option (List (Option FileName))) :
    Option FileName := do
  let entries ← entries
  let best ← entries.reduceOption.foldlM considerFile none
  best.map Prod.snd

/-! ## The names of snapshots -/

theorem toStr_utf8Bytes (s : String) : toStr (utf8Bytes s) = some s := by
  have hbytes : (⟨(utf8Bytes s).toArray⟩ : ByteArray) = s.toByteArray := rfl
  unfold toStr String.fromUTF8?
  rw [hbytes, dif_pos s.isValidUTF8]
  rfl

theorem rsplitFileAtDot_json {stem : String} (h : stem ≠ "") :
    rsplitFileAtDot (utf8Bytes (stem ++ ".json")) =
      (some (utf8Bytes stem), some (utf8Bytes "json")) := by
  have hdots : utf8Bytes (stem ++ ".json") ≠ utf8Bytes ".." := by
    intro heq
    have hlength := congrArg List.length heq
    rw [utf8Bytes_append, List.length_append] at hlength
    have hjson : (utf8Bytes ".json").length = 5 := rfl
    have hdots : (utf8Bytes "..").length = 2 := rfl
    omega
  have hsplit : utf8Bytes (stem ++ ".json") =
      utf8Bytes stem ++ dot :: utf8Bytes "json" := by
    rw [utf8Bytes_append]
    rfl
  unfold rsplitFileAtDot
  rw [if_neg hdots, hsplit, rsplitOnce_append _ (by decide)]
  cases hstem : utf8Bytes stem with
  | nil => exact absurd (utf8Bytes_eq_nil.mp hstem) h
  | cons b rest => rfl

theorem parseU64_toString (n : UInt64) :
    parseU64 (toString n.toNat).toList = some n := by
  have hdigits : (toString n.toNat).toList = Nat.toDigits 10 n.toNat := by
    rw [Nat.toString_eq_repr, Nat.toList_repr]
  have hall : ∀ c ∈ Nat.toDigits 10 n.toNat, c.isDigit = true := fun c hc =>
    Nat.isDigit_of_mem_toDigits (by decide) (by decide) hc
  have hunsigned : (match Nat.toDigits 10 n.toNat with
      | '+' :: rest => rest
      | _ => Nat.toDigits 10 n.toNat) = Nat.toDigits 10 n.toNat := by
    split
    · next rest hplus =>
        have hdigit := hall '+' (by rw [hplus]; exact .head _)
        cases hdigit
    · rfl
  rw [hdigits]
  unfold parseU64
  simp only [hunsigned, Nat.ofDigitChars_ten_toDigits]
  rw [if_pos ⟨Nat.toDigits_ne_nil, List.all_eq_true.mpr hall, n.toNat_lt⟩,
    UInt64.ofNat_toNat]

theorem snapshotPath_parts (n : UInt64) :
    isJson (snapshotPath n) = true ∧ snapshotSeq (snapshotPath n) = some n := by
  have hname : rsplitFileAtDot (snapshotPath n) =
      (some (utf8Bytes ("snapshot_" ++ toString n.toNat)),
        some (utf8Bytes "json")) := by
    refine rsplitFileAtDot_json fun h => ?_
    have hlist := congrArg String.toList h
    rw [String.toList_append] at hlist
    cases hlist
  constructor
  · simp only [isJson, fileExtension, hname, Option.bind_some, toStr_utf8Bytes]
    decide
  · have hprefix : stripPrefix ("snapshot_" ++ toString n.toNat) "snapshot_" =
        some (toString n.toNat).toList := by
      unfold stripPrefix
      rw [String.toList_append]
      exact List.dropPrefix?_append_of_beq _ (by decide)
    simp only [snapshotSeq, fileStem, hname, Option.some_or,
      Option.bind_eq_bind, Option.bind_some, toStr_utf8Bytes, hprefix,
      parseU64_toString]

end ClobApi
