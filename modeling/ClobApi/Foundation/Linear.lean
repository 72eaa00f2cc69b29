import ClobApi.Foundation.Trace
import Mathlib.Data.List.Nodup

/-!
# Linearizability

Processes work on one object, each of them once, at some moment between its call
and its answer.  Then a sequence of their operations, one at a time, explains
the object and all answers, and it grows at its end: an operation that begins
after another was answered comes after it.
-/

namespace ClobApi.Foundation

variable {σ τ ι ℓ α ρ : Type} {perform : τ → α → τ × ρ}

/-- The object after the operations one after the other. -/
def performAll (perform : τ → α → τ × ρ) : τ → List (ι × α) → τ :=
  List.foldl fun t entry => (perform t entry.2).1

def replies (perform : τ → α → τ × ρ) :
    τ → List (ι × α) → List (ι × α × ρ) :=
  emissions (fun t entry => (perform t entry.2).1) fun t entry =>
    [(entry.1, entry.2, (perform t entry.2).2)]

theorem performAll_concat (t : τ) (order : List (ι × α)) (i : ι) (a : α) :
    performAll perform t (order ++ [(i, a)]) =
      (perform (performAll perform t order) a).1 := by
  simp [performAll]

theorem replies_concat (t : τ) (order : List (ι × α)) (i : ι) (a : α) :
    replies perform t (order ++ [(i, a)]) = replies perform t order ++
      [(i, a, (perform (performAll perform t order) a).2)] :=
  emissions_append _ _ t order (i, a)

theorem map_fst_replies (t : τ) (order : List (ι × α)) :
    (replies perform t order).map Prod.fst = order.map Prod.fst := by
  induction order generalizing t with
  | nil => rfl
  | cons entry order ih => exact congrArg (entry.1 :: ·) (ih _)

/--
The operations in this order lead from `start` to `object`, and they are those
of the processes that have worked, with the answers of these.
-/
structure Linearizes (perform : τ → α → τ × ρ) (start object : τ)
    (worked : ι → Option (α × ρ)) (order : List (ι × α)) : Prop where
  object : performAll perform start order = object
  once : (order.map Prod.fst).Nodup
  worked (i : ι) (a : α) (r : ρ) :
    worked i = some (a, r) ↔ (i, a, r) ∈ replies perform start order

namespace Linearizes

variable {start object : τ} {worked : ι → Option (α × ρ)}
  {order : List (ι × α)}

theorem nil (h : ∀ i, worked i = none) :
    Linearizes perform object object worked [] where
  object := rfl
  once := .nil
  worked i a r := by simp [h, replies, emissions]

theorem mem_iff (h : Linearizes perform start object worked order) (i : ι) :
    i ∈ order.map Prod.fst ↔ (worked i).isSome = true := by
  have hnames : (replies perform start order).map Prod.fst =
      order.map Prod.fst := map_fst_replies start order
  rw [← hnames, Option.isSome_iff_exists]
  constructor
  · intro hi
    obtain ⟨⟨i, a, r⟩, hmem, rfl⟩ := List.mem_map.mp hi
    exact ⟨(a, r), (h.worked i a r).mpr hmem⟩
  · rintro ⟨⟨a, r⟩, hworked⟩
    exact List.mem_map_of_mem ((h.worked i a r).mp hworked)

theorem concat {worked' : ι → Option (α × ρ)} {i : ι} {a : α}
    (h : Linearizes perform start object worked order) (hi : worked i = none)
    (hi' : worked' i = some (a, (perform object a).2))
    (hother : ∀ j, j ≠ i → worked' j = worked j) :
    Linearizes perform start (perform object a).1 worked'
      (order ++ [(i, a)]) where
  object := by rw [performAll_concat, h.object]
  once := by
    have hfresh : i ∉ order.map Prod.fst := by
      rw [h.mem_iff, hi]
      nofun
    rw [List.map_append, List.map_singleton, ← List.concat_eq_append]
    exact (List.nodup_concat _ _).mpr ⟨hfresh, h.once⟩
  worked j b r := by
    rw [replies_concat, List.mem_append, List.mem_singleton, ← h.worked,
      h.object]
    by_cases hj : j = i
    · subst hj
      simp [hi, hi', eq_comm]
    · simp [hother j hj, hj]

theorem of_worked_eq {worked' : ι → Option (α × ρ)}
    (h : Linearizes perform start object worked order)
    (hsame : ∀ i, worked' i = worked i) :
    Linearizes perform start object worked' order :=
  ⟨h.object, h.once, fun i => hsame i ▸ h.worked i⟩

theorem precedes {object' : τ} {worked' : ι → Option (α × ρ)}
    {later : List (ι × α)} {i j : ι}
    (h : Linearizes perform start object worked order)
    (h' : Linearizes perform start object' worked' (order ++ later))
    (hi : (worked i).isSome = true) (hj : worked j = none)
    (hj' : (worked' j).isSome = true) :
    [i, j].Sublist ((order ++ later).map Prod.fst) := by
  have hfirst : i ∈ order.map Prod.fst := (h.mem_iff i).mpr hi
  have hnot : j ∉ order.map Prod.fst := by
    rw [h.mem_iff, hj]
    nofun
  have hsecond : j ∈ later.map Prod.fst := by
    have hmem := (h'.mem_iff j).mpr hj'
    rw [List.map_append] at hmem
    exact (List.mem_append.mp hmem).resolve_left hnot
  rw [List.map_append]
  exact (List.singleton_sublist.mpr hfirst).append
    (List.singleton_sublist.mpr hsecond)

end Linearizes

/-! ## Runs -/

section Runs

variable {step : σ → ι × ℓ → σ → Prop} {object : σ → τ}
  {worked : σ → ι → Option (α × ρ)}

/-- What a step of process `i` may do to the object and to the process. -/
inductive Atomic (perform : τ → α → τ × ρ) (object : τ)
    (worked : Option (α × ρ)) : τ → Option (α × ρ) → Prop
  | silent : Atomic perform object worked object worked
  | works (a : α) (idle : worked = none) :
      Atomic perform object worked (perform object a).1
        (some (a, (perform object a).2))

/-- A run whose steps are atomic continues every order of its beginning. -/
theorem Run.linearizes {Inv : σ → Prop}
    (hinv : ∀ s label s', Inv s → step s label s' → Inv s')
    (hatomic : ∀ s label s', Inv s → step s label s' →
      Atomic perform (object s) (worked s label.1) (object s')
        (worked s' label.1))
    (hframe : ∀ s label s', step s label s' → ∀ i, i ≠ label.1 →
      worked s' i = worked s i)
    {s s' : σ} {labels : List (ι × ℓ)} {start : τ} {order : List (ι × α)}
    (hs : Inv s)
    (hstart : Linearizes perform start (object s) (worked s) order)
    (h : Run step s labels s') :
    ∃ later, Linearizes perform start (object s') (worked s')
      (order ++ later) := by
  induction h with
  | start => exact ⟨[], by rwa [List.append_nil]⟩
  | @next labels m label s' hrun hstep ih =>
      obtain ⟨later, hlater⟩ := ih
      have hstepped := hatomic _ _ _ (hrun.invariant hs hinv) hstep
      have hother := hframe _ _ _ hstep
      generalize hobject : object s' = t, hworked : worked s' label.1 = w
        at hstepped
      cases hstepped with
      | silent =>
          refine ⟨later, hlater.of_worked_eq fun i => ?_⟩
          by_cases hi : i = label.1
          · rw [hi, hworked]
          · exact hother i hi
      | works a idle =>
          refine ⟨later ++ [(label.1, a)], ?_⟩
          rw [← List.append_assoc]
          exact hlater.concat idle hworked hother

end Runs

end ClobApi.Foundation
