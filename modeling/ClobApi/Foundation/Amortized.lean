import Mathlib.Algebra.BigOperators.Group.List.Basic
import Mathlib.Algebra.GroupWithZero.Nat
import Mathlib.Data.List.Induction

/-!
# Amortized costs

Every entry of a log brings a credit and has a cost, and a potential stands for
the credit that is saved.  If each entry pays its cost out of its credit and of
the potential it takes, all costs together are paid by all credits.
-/

namespace ClobApi.Foundation

variable {α : Type} {cost credit : α → Nat} {potential : List α → Nat}

/-- Every entry is paid when it comes. -/
def Affordable (cost credit : α → Nat) (potential : List α → Nat)
    (log : List α) : Prop :=
  ∀ before x after, log = before ++ x :: after →
    cost x + potential (before ++ [x]) ≤ credit x + potential before

theorem Affordable.init {log : List α} {x : α}
    (h : Affordable cost credit potential (log ++ [x])) :
    Affordable cost credit potential log := by
  intro before y after hsplit
  exact h before y (after ++ [x]) (by simp [hsplit])

theorem Affordable.total {log : List α}
    (h : Affordable cost credit potential log) :
    (log.map cost).sum + potential log ≤
      (log.map credit).sum + potential [] := by
  induction log using List.reverseRecOn with
  | nil => simp
  | append_singleton log x ih =>
      have hinit := ih h.init
      have hlast := h log x [] rfl
      simp only [List.map_append, List.map_singleton, List.sum_append,
        List.sum_singleton]
      omega

end ClobApi.Foundation
