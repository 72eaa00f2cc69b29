import Mathlib.Algebra.Ring.Nat
import Mathlib.Data.List.Basic

/-!
# Greedy allotment

A demand is shared out along a list of suppliers: each gives what it has until
nothing is wanted any more, and the walk halts before the first supplier that
may not be used.
-/

namespace ClobApi.Foundation

/--
What was taken from whom, what is still wanted, and whether a supplier that may
not be used was met first.
-/
structure Allotment (α : Type) where
  shares : List (α × Nat)
  wanted : Nat
  blocked : Bool
  deriving DecidableEq

def Allotment.map {α β : Type} (f : α → β) (out : Allotment α) :
    Allotment β :=
  ⟨out.shares.map fun share => (f share.1, share.2), out.wanted, out.blocked⟩

section Greedy

variable {α : Type} (size : α → Nat) (halts : α → Bool)

def greedy : List α → Nat → Allotment α
  | [], wanted => ⟨[], wanted, false⟩
  | a :: suppliers, wanted =>
      if wanted = 0 then ⟨[], 0, false⟩
      else if halts a then ⟨[], wanted, true⟩
      else
        let rest := greedy suppliers (wanted - size a)
        { rest with shares := (a, min wanted (size a)) :: rest.shares }

variable {size halts}

@[simp] theorem greedy_zero (suppliers : List α) :
    greedy size halts suppliers 0 = ⟨[], 0, false⟩ := by
  cases suppliers with
  | nil => rfl
  | cons a suppliers => rw [greedy, if_pos rfl]

/-- The walk along two lists goes on with the second where the first ends. -/
theorem greedy_append (suppliers suppliers' : List α) (wanted : Nat) :
    greedy size halts (suppliers ++ suppliers') wanted =
      let first := greedy size halts suppliers wanted
      if first.blocked then first
      else
        let rest := greedy size halts suppliers' first.wanted
        { rest with shares := first.shares ++ rest.shares } := by
  fun_induction greedy size halts suppliers wanted with
  | case1 => rfl
  | case2 => simp
  | case3 a suppliers wanted hzero hhalts =>
      simp [greedy, hzero, hhalts]
  | case4 a suppliers wanted hzero hhalts rest ih =>
      rw [List.cons_append, greedy, if_neg hzero, if_neg hhalts, ih]
      dsimp only
      split
      · rfl
      · rfl

theorem greedy_sum (suppliers : List α) (wanted : Nat) :
    ((greedy size halts suppliers wanted).shares.map Prod.snd).sum +
      (greedy size halts suppliers wanted).wanted = wanted := by
  fun_induction greedy size halts suppliers wanted with
  | case1 => simp
  | case2 => simp
  | case3 => simp
  | case4 a suppliers wanted hzero hhalts rest ih =>
      have hrest : (rest.shares.map Prod.snd).sum + rest.wanted =
          wanted - size a := ih
      simp only [List.map_cons, List.sum_cons]
      omega

theorem greedy_prefix (suppliers : List α) (wanted : Nat) :
    (greedy size halts suppliers wanted).shares.map Prod.fst <+: suppliers := by
  fun_induction greedy size halts suppliers wanted with
  | case1 => simp
  | case2 => simp
  | case3 => simp
  | case4 a suppliers wanted hzero hhalts rest ih => simpa using ih

theorem greedy_share (suppliers : List α) (wanted : Nat) (share : α × Nat) :
    share ∈ (greedy size halts suppliers wanted).shares →
      share.2 ≤ size share.1 ∧ halts share.1 = false ∧
        (0 < size share.1 → 0 < share.2) := by
  fun_induction greedy size halts suppliers wanted with
  | case1 => simp
  | case2 => simp
  | case3 => simp
  | case4 a suppliers wanted hzero hhalts rest ih =>
      intro h
      rcases List.mem_cons.mp h with rfl | hrest
      · refine ⟨Nat.min_le_right _ _, by simpa using hhalts, fun hsize => ?_⟩
        exact Nat.lt_min.mpr ⟨Nat.pos_of_ne_zero hzero, hsize⟩
      · exact ih hrest

theorem greedy_blocked (suppliers : List α) (wanted : Nat) :
    (greedy size halts suppliers wanted).blocked = true →
      (greedy size halts suppliers wanted).wanted ≠ 0 := by
  fun_induction greedy size halts suppliers wanted with
  | case1 => simp
  | case2 => simp
  | case3 a suppliers wanted hzero hhalts => exact fun _ => hzero
  | case4 a suppliers wanted hzero hhalts rest ih => exact ih

theorem greedy_exhausted (suppliers : List α) (wanted : Nat) :
    (greedy size halts suppliers wanted).blocked = false →
      (greedy size halts suppliers wanted).wanted ≠ 0 →
        (greedy size halts suppliers wanted).shares =
          suppliers.map fun a => (a, size a) := by
  fun_induction greedy size halts suppliers wanted with
  | case1 => simp
  | case2 => simp
  | case3 => simp
  | case4 a suppliers wanted hzero hhalts rest ih =>
      intro hblocked hwanted
      have hsum : (rest.shares.map Prod.snd).sum + rest.wanted =
          wanted - size a := greedy_sum suppliers (wanted - size a)
      have hle : size a ≤ wanted := by
        have hrest : rest.wanted ≠ 0 := hwanted
        omega
      rw [ih hblocked hwanted, List.map_cons, Nat.min_eq_right hle]

theorem greedy_map {β : Type} (f : β → α) (suppliers : List β) (wanted : Nat) :
    greedy size halts (suppliers.map f) wanted =
      (greedy (fun b => size (f b)) (fun b => halts (f b)) suppliers
        wanted).map f := by
  induction suppliers generalizing wanted with
  | nil => rfl
  | cons b suppliers ih =>
      rw [List.map_cons, greedy, greedy]
      split
      · rfl
      · split
        · rfl
        · rw [ih]
          rfl

end Greedy

end ClobApi.Foundation
