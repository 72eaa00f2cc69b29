import Mathlib.Data.List.Basic

/-!
# Admission by a sliding window

A window of `width` that ends now counts the entries admitted in it, and lets
the next one in while they are fewer than `limit`.  The entries before the
window may be forgotten at every admission, since windows only move forward.
-/

namespace ClobApi.Foundation

namespace SlidingWindow

variable {α : Type} {time : α → Nat} {width limit : Nat}

def live (time : α → Nat) (width now : Nat) (entries : List α) : List α :=
  entries.filter fun a => now - width ≤ time a

@[simp] theorem live_append (now : Nat) (entries entries' : List α) :
    live time width now (entries ++ entries') =
      live time width now entries ++ live time width now entries' :=
  List.filter_append ..

theorem live_live {earlier now : Nat} (h : earlier ≤ now) (entries : List α) :
    live time width now (live time width earlier entries) =
      live time width now entries := by
  unfold live
  rw [List.filter_filter]
  refine List.filter_congr fun a _ => ?_
  have hmove : now - width ≤ time a → earlier - width ≤ time a := by omega
  grind

/-! ## Forgetting old entries -/

/-- `kept` counts like the whole `history` in every window from `last` on. -/
def Covers (time : α → Nat) (width : Nat) (kept history : List α)
    (last : Nat) : Prop :=
  ∀ now, last ≤ now → live time width now kept = live time width now history

theorem covers_nil (last : Nat) : Covers time width [] [] last :=
  fun _ _ => rfl

section Covers

variable {kept history : List α} {last : Nat}

theorem Covers.later (h : Covers time width kept history last) {next : Nat}
    (hnext : last ≤ next) : Covers time width kept history next :=
  fun now hnow => h now (Nat.le_trans hnext hnow)

theorem Covers.record (h : Covers time width kept history last) {a : α}
    (ha : last ≤ time a) :
    Covers time width (live time width (time a) kept ++ [a]) (history ++ [a])
      (time a) := by
  intro now hnow
  rw [live_append, live_append, live_live hnow,
    h now (Nat.le_trans ha hnow)]

end Covers

/-! ## The bound on every interval -/

/-- Histories in which each entry was let in by the window that it ends. -/
inductive Admitted (time : α → Nat) (width limit : Nat) : List α → Prop
  | nil : Admitted time width limit []
  | record {history a} : Admitted time width limit history →
      (∀ b ∈ history, time b ≤ time a) →
      (live time width (time a) history).length < limit →
      Admitted time width limit (history ++ [a])

def within (time : α → Nat) (first last : Nat) (entries : List α) : List α :=
  entries.filter fun a => first ≤ time a ∧ time a ≤ last

theorem within_append (first last : Nat) (entries entries' : List α) :
    within time first last (entries ++ entries') =
      within time first last entries ++ within time first last entries' :=
  List.filter_append ..

/-- The entry that ends a full interval would have met its own window full. -/
theorem Admitted.length_within_le {history : List α}
    (h : Admitted time width limit history) {first last : Nat}
    (hwidth : last ≤ first + width) :
    (within time first last history).length ≤ limit := by
  induction h with
  | nil => exact Nat.zero_le _
  | @record history a hhistory hlast hroom ih =>
      by_cases ha : first ≤ time a ∧ time a ≤ last
      · have hsub : (within time first last history).Sublist
            (live time width (time a) history) := by
          refine List.monotone_filter_right _ fun b hb => ?_
          simp only [decide_eq_true_eq] at hb ⊢
          omega
        have hle := hsub.length_le
        simp only [within_append, List.length_append]
        have hlast : (within time first last [a]).length ≤ 1 :=
          List.length_filter_le _ _
        omega
      · have hlast : within time first last [a] = [] := by
          simpa [within] using ha
        rw [within_append, hlast, List.append_nil]
        exact ih

end SlidingWindow

end ClobApi.Foundation
