import Mathlib.Data.List.MinMax

/-!
# Lists split at one entry

A list is split at the last separator in it, or at the first of the entries with
the largest key.
-/

namespace ClobApi.Foundation

/-! ## The last separator -/

section Separator

variable {α : Type} [DecidableEq α] {sep : α}

def rsplitOnce (sep : α) : List α → Option (List α × List α)
  | [] => none
  | a :: rest =>
      match rsplitOnce sep rest with
      | some (before, after) => some (a :: before, after)
      | none => if a = sep then some ([], rest) else none

theorem rsplitOnce_eq_none {l : List α} (h : sep ∉ l) :
    rsplitOnce sep l = none := by
  induction l with
  | nil => rfl
  | cons a rest ih =>
      rw [List.mem_cons, not_or] at h
      rw [rsplitOnce, ih h.2]
      exact if_neg (Ne.symm h.1)

theorem rsplitOnce_append (before : List α) {after : List α} (h : sep ∉ after) :
    rsplitOnce sep (before ++ sep :: after) = some (before, after) := by
  induction before with
  | nil =>
      rw [List.nil_append, rsplitOnce, rsplitOnce_eq_none h]
      exact if_pos rfl
  | cons a before ih => rw [List.cons_append, rsplitOnce, ih]

end Separator

/-! ## The first maximum -/

/-- Entries before the first maximum have smaller keys, later ones no larger. -/
theorem mem_argmax_iff_split {α κ : Type} [LinearOrder κ] {f : α → κ}
    {l : List α} {m : α} :
    m ∈ l.argmax f ↔ ∃ before after, l = before ++ m :: after ∧
      (∀ a ∈ before, f a < f m) ∧ ∀ a ∈ after, f a ≤ f m := by
  classical
  rw [List.mem_argmax_iff]
  constructor
  · rintro ⟨hmem, hle, hfirst⟩
    obtain ⟨before, after, rfl, hnew⟩ := List.eq_append_cons_of_mem hmem
    refine ⟨before, after, rfl, fun a ha => ?_, fun a ha =>
      hle a (by simp [ha])⟩
    by_contra hnot
    have hidx := hfirst a (by simp [ha]) (not_lt.mp hnot)
    have hlt := List.idxOf_lt_length_of_mem ha
    rw [List.idxOf_append_of_notMem hnew, List.idxOf_append_of_mem ha] at hidx
    omega
  · rintro ⟨before, after, rfl, hbefore, hafter⟩
    have hm : m ∉ before := fun hmem => lt_irrefl _ (hbefore m hmem)
    refine ⟨by simp, fun a ha => ?_, fun a ha hle => ?_⟩
    · rcases List.mem_append.mp ha with hold | hlater
      · exact (hbefore a hold).le
      · rcases List.mem_cons.mp hlater with rfl | hlater
        · exact le_refl _
        · exact hafter a hlater
    · have ha : a ∉ before := fun hmem => not_lt.mpr hle (hbefore a hmem)
      rw [List.idxOf_append_of_notMem hm, List.idxOf_append_of_notMem ha,
        List.idxOf_cons_self]
      exact Nat.le_add_right _ _

end ClobApi.Foundation
