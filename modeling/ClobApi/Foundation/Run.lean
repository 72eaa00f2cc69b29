import Mathlib.Data.List.Induction

/-!
# Runs of a labelled transition system

A run is a finite sequence of labelled steps.  It grows at its end, so that an
invariant of one step becomes an invariant of every state a run reaches.
-/

namespace ClobApi.Foundation

variable {σ ℓ : Type}

inductive Run (step : σ → ℓ → σ → Prop) (init : σ) : List ℓ → σ → Prop
  | start : Run step init [] init
  | next {labels s l s'} : Run step init labels s → step s l s' →
      Run step init (labels ++ [l]) s'

variable {step : σ → ℓ → σ → Prop} {init : σ}

theorem Run.invariant {Inv : σ → Prop} (hinit : Inv init)
    (hstep : ∀ s l s', Inv s → step s l s' → Inv s') {labels : List ℓ} {s : σ}
    (h : Run step init labels s) : Inv s := by
  induction h with
  | start => exact hinit
  | next _ hs ih => exact hstep _ _ _ ih hs

theorem Run.eq_init {s : σ} (h : Run step init [] s) : s = init := by
  generalize hlabels : ([] : List ℓ) = labels at h
  cases h with
  | start => rfl
  | next hrun hs => simp at hlabels

theorem Run.uncons {l : ℓ} {labels : List ℓ} {s : σ}
    (h : Run step init (l :: labels) s) :
    ∃ m, step init l m ∧ Run step m labels s := by
  generalize hlabels : l :: labels = all at h
  induction h generalizing labels with
  | start => cases hlabels
  | @next before s last s' hrun hs ih =>
      cases before with
      | nil =>
          cases hlabels
          obtain rfl := hrun.eq_init
          exact ⟨s', hs, .start⟩
      | cons first before =>
          cases hlabels
          obtain ⟨m, hfirst, hrest⟩ := ih rfl
          exact ⟨m, hfirst, hrest.next hs⟩

theorem Run.append {labels labels' : List ℓ} {m s : σ}
    (h : Run step init labels m) (h' : Run step m labels' s) :
    Run step init (labels ++ labels') s := by
  induction h' with
  | start => rwa [List.append_nil]
  | next _ hs ih =>
      rw [← List.append_assoc]
      exact .next ih hs

theorem Run.of_foldlM {next : σ → ℓ → Option σ}
    (hnext : ∀ s l s', next s l = some s' → step s l s') {labels : List ℓ}
    {s : σ} (h : labels.foldlM next init = some s) :
    Run step init labels s := by
  induction labels using List.reverseRecOn generalizing s with
  | nil =>
      obtain rfl := Option.some.inj h
      exact .start
  | append_singleton labels l ih =>
      simp only [List.foldlM_append, List.foldlM_cons, List.foldlM_nil,
        bind_pure] at h
      obtain ⟨before, hbefore, hlast⟩ := Option.bind_eq_some_iff.mp h
      exact .next (ih hbefore) (hnext _ _ _ hlast)

theorem Run.mono {step' : σ → ℓ → σ → Prop}
    (hstep : ∀ s l s', step s l s' → step' s l s') {labels : List ℓ} {s : σ}
    (h : Run step init labels s) : Run step' init labels s := by
  induction h with
  | start => exact .start
  | next _ hs ih => exact .next ih (hstep _ _ _ hs)

/-! ## Processes

Where a label names the process that takes the step, the phases of the other
processes stay.
-/

section Processes

variable {ι φ : Type} {step : σ → ι × ℓ → σ → Prop} {phase : σ → ι → φ}

theorem Run.phase_eq
    (hframe : ∀ s label s', step s label s' → ∀ i, i ≠ label.1 →
      phase s' i = phase s i)
    {labels : List (ι × ℓ)} {s : σ} (h : Run step init labels s) {i : ι}
    (hi : i ∉ labels.map Prod.fst) : phase s i = phase init i := by
  induction h with
  | start => rfl
  | next _ hs ih =>
      simp only [List.map_append, List.mem_append, not_or] at hi
      rw [hframe _ _ _ hs i (by simpa using hi.2), ih hi.1]

/-- What holds of every process at the start needs a check only of those that
took a step. -/
theorem Run.forall_phase
    (hframe : ∀ s label s', step s label s' → ∀ i, i ≠ label.1 →
      phase s' i = phase s i)
    {P : φ → Prop} (hinit : ∀ i, P (phase init i))
    {labels : List (ι × ℓ)} {s : σ} (h : Run step init labels s)
    (hdone : ∀ label ∈ labels, P (phase s label.1)) (i : ι) :
    P (phase s i) := by
  by_cases hi : i ∈ labels.map Prod.fst
  · obtain ⟨label, hlabel, rfl⟩ := List.mem_map.mp hi
    exact hdone label hlabel
  · rw [h.phase_eq hframe hi]
    exact hinit i

end Processes

end ClobApi.Foundation
