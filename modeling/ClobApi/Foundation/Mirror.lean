import Mathlib.Logic.Function.Basic

/-!
# Mirroring the last entries of a log

Workers append batches to a log and write each batch to a register later, one
value for each key.  The register shows the last values of the log, or a worker
that has not written yet will put them there, exactly as long as no worker
overwrites what nobody puts back.
-/

namespace ClobApi.Foundation

variable {ι κ α β : Type}

structure Mirror (ι κ α β : Type) where
  log : List α
  /-- the batches that are not written yet -/
  held : ι → List α
  shown : κ → Option β

def Mirror.append [DecidableEq ι] (t : Mirror ι κ α β) (i : ι)
    (batch : List α) : Mirror ι κ α β :=
  { t with
    log := t.log ++ batch
    held := Function.update t.held i batch }

theorem Mirror.append_held [DecidableEq ι] (t : Mirror ι κ α β) (i j : ι)
    (batch : List α) :
    (t.append i batch).held j = if j = i then batch else t.held j :=
  Function.update_apply _ _ _ _

theorem Mirror.append_nil [DecidableEq ι] {t : Mirror ι κ α β} {i : ι}
    (h : t.held i = []) : t.append i [] = t := by
  unfold Mirror.append
  rw [List.append_nil, ← h, Function.update_eq_self]

variable [DecidableEq κ]

section LastValue

variable {key : α → κ} {value : α → β}

variable (key value) in
/-- The value that the last entry of a key gives it. -/
def lastValue (entries : List α) (k : κ) : Option β :=
  ((entries.filter fun a => key a = k).getLast?).map value

@[simp] theorem lastValue_nil (k : κ) : lastValue key value [] k = none := rfl

theorem lastValue_append (entries entries' : List α) (k : κ) :
    lastValue key value (entries ++ entries') k =
      (lastValue key value entries' k).or (lastValue key value entries k) := by
  unfold lastValue
  rw [List.filter_append, List.getLast?_append]
  cases (entries'.filter fun a => key a = k).getLast? <;> rfl

theorem lastValue_singleton (a : α) (k : κ) :
    lastValue key value [a] k = if key a = k then some (value a) else none := by
  unfold lastValue
  by_cases h : key a = k <;> simp [h]

end LastValue

namespace Mirror

variable {key : α → κ} {value : α → β} {t : Mirror ι κ α β} {i : ι}

variable (key value) in
def Tracks (t : Mirror ι κ α β) : Prop :=
  ∀ k v, lastValue key value t.log k = some v →
    t.shown k = some v ∨ ∃ i, lastValue key value (t.held i) k = some v

variable (key value) in
/-- The worker writes last values, or another one puts them back. -/
def WritesLast (t : Mirror ι κ α β) (i : ι) : Prop :=
  ∀ k w v, lastValue key value (t.held i) k = some w →
    lastValue key value t.log k = some v →
      w = v ∨ ∃ j, j ≠ i ∧ lastValue key value (t.held j) k = some v

variable (key value) in
/-- Neither the register nor a batch has the last value of some key. -/
def Lost (t : Mirror ι κ α β) : Prop :=
  ∃ k v, lastValue key value t.log k = some v ∧ t.shown k ≠ some v ∧
    ∀ i, lastValue key value (t.held i) k ≠ some v

theorem lost_of_not_tracks (h : ¬ t.Tracks key value) : t.Lost key value := by
  by_contra hnot
  refine h fun k v hlast => ?_
  by_contra hneither
  rw [not_or, not_exists] at hneither
  exact hnot ⟨k, v, hlast, hneither.1, hneither.2⟩

variable [DecidableEq ι]

variable (key value) in
def write (t : Mirror ι κ α β) (i : ι) : Mirror ι κ α β :=
  { t with
    held := Function.update t.held i []
    shown := fun k => (lastValue key value (t.held i) k).or (t.shown k) }

theorem write_held (t : Mirror ι κ α β) (i j : ι) :
    (t.write key value i).held j = if j = i then [] else t.held j :=
  Function.update_apply _ _ _ _

theorem write_shown (t : Mirror ι κ α β) (i : ι) (k : κ) :
    (t.write key value i).shown k =
      (lastValue key value (t.held i) k).or (t.shown k) := rfl

theorem Tracks.append (h : t.Tracks key value) (hfree : t.held i = [])
    (batch : List α) : (t.append i batch).Tracks key value := by
  intro k v hlast
  rw [Mirror.append, lastValue_append] at hlast
  cases hnew : lastValue key value batch k with
  | some w =>
      rw [hnew, Option.some_or] at hlast
      refine .inr ⟨i, ?_⟩
      rw [append_held, if_pos rfl, hnew, hlast]
  | none =>
      rw [hnew, Option.none_or] at hlast
      rcases h k v hlast with hshown | ⟨j, hj⟩
      · exact .inl hshown
      · have hne : j ≠ i := by
          rintro rfl
          rw [hfree] at hj
          cases hj
        refine .inr ⟨j, ?_⟩
        rwa [append_held, if_neg hne]

/-- A write keeps the register on track exactly if it writes last values. -/
theorem Tracks.write_iff (h : t.Tracks key value) :
    (t.write key value i).Tracks key value ↔ t.WritesLast key value i := by
  constructor
  · intro hafter k w v hw hv
    rcases hafter k v hv with hshown | ⟨j, hj⟩
    · rw [write_shown, hw, Option.some_or] at hshown
      exact .inl (Option.some.inj hshown)
    · rw [write_held] at hj
      split at hj
      · cases hj
      · next hne => exact .inr ⟨j, hne, hj⟩
  · intro hlast k v hv
    have hother : ∀ j, j ≠ i → lastValue key value (t.held j) k = some v →
        lastValue key value ((t.write key value i).held j) k = some v := by
      intro j hne hj
      rwa [write_held, if_neg hne]
    cases hw : lastValue key value (t.held i) k with
    | none =>
        rcases h k v hv with hshown | ⟨j, hj⟩
        · left
          rw [write_shown, hw, Option.none_or, hshown]
        · have hne : j ≠ i := by
            rintro rfl
            rw [hw] at hj
            cases hj
          exact .inr ⟨j, hother j hne hj⟩
    | some w =>
        rcases hlast k w v hw hv with rfl | ⟨j, hne, hj⟩
        · left
          rw [write_shown, hw, Option.some_or]
        · exact .inr ⟨j, hother j hne hj⟩

theorem Lost.write (h : t.Lost key value) (i : ι) :
    (t.write key value i).Lost key value := by
  obtain ⟨k, v, hlast, hshown, hheld⟩ := h
  refine ⟨k, v, hlast, ?_, fun j => ?_⟩
  · rw [write_shown]
    have hne := hheld i
    cases hw : lastValue key value (t.held i) k with
    | none => rwa [Option.none_or]
    | some w =>
        rw [hw] at hne
        rwa [Option.some_or]
  · rw [write_held]
    split
    · simp
    · exact hheld j

end Mirror

end ClobApi.Foundation
