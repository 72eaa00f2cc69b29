import ClobApi.Foundation.Run

/-!
# Traces of a deterministic machine

What a machine emits while it reads a list of inputs, and what changes when
some of the inputs are left out.
-/

namespace ClobApi.Foundation

variable {σ τ ι ω : Type}

/-- What `emit` says at each input, in the state the machine is then in. -/
def emissions (next : σ → ι → σ) (emit : σ → ι → List ω) : σ → List ι → List ω
  | _, [] => []
  | s, i :: inputs => emit s i ++ emissions next emit (next s i) inputs

theorem emissions_append (next : σ → ι → σ) (emit : σ → ι → List ω) (s : σ)
    (inputs : List ι) (i : ι) :
    emissions next emit s (inputs ++ [i]) =
      emissions next emit s inputs ++ emit (inputs.foldl next s) i := by
  induction inputs generalizing s with
  | nil => simp [emissions]
  | cons first inputs ih => simp [emissions, ih]

theorem exists_of_mem_emissions {next : σ → ι → σ} {emit : σ → ι → List ω}
    {s : σ} {inputs : List ι} {a : ω} (h : a ∈ emissions next emit s inputs) :
    ∃ s' i, a ∈ emit s' i := by
  induction inputs generalizing s with
  | nil => cases h
  | cons i inputs ih =>
      rcases List.mem_append.mp h with hfirst | hlater
      · exact ⟨s, i, hfirst⟩
      · exact ih hlater

def kept (next : σ → ι → σ) (keep : σ → ι → Bool) : σ → List ι → List ι :=
  emissions next fun s i => if keep s i then [i] else []

theorem kept_append (next : σ → ι → σ) (keep : σ → ι → Bool) (s : σ)
    (inputs : List ι) (i : ι) :
    kept next keep s (inputs ++ [i]) =
      kept next keep s inputs ++
        if keep (inputs.foldl next s) i then [i] else [] :=
  emissions_append next _ s inputs i

/-! ## Machines that answer -/

/-- The answers to the inputs that `keep` selects. -/
def answers (step : σ → ι → σ × ω) (keep : σ → ι → Bool) :
    σ → List ι → List ω :=
  emissions (fun s i => (step s i).1) fun s i =>
    if keep s i then [(step s i).2] else []

def allAnswers (step : σ → ι → σ × ω) : σ → List ι → List ω :=
  answers step fun _ _ => true

/--
A machine that reads only the selected inputs stays related to one that reads
them all.
-/
theorem answers_kept {step : σ → ι → σ × ω} {step' : τ → ι → τ × ω}
    {keep : σ → ι → Bool} {R : σ → τ → Prop}
    (hkeep : ∀ s t i, R s t → keep s i = true →
      R (step s i).1 (step' t i).1 ∧ (step s i).2 = (step' t i).2)
    (hskip : ∀ s t i, R s t → keep s i = false → R (step s i).1 t)
    {s : σ} {t : τ} (hR : R s t) (inputs : List ι) :
    answers step keep s inputs =
        allAnswers step' t (kept (fun s i => (step s i).1) keep s inputs) ∧
      R (inputs.foldl (fun s i => (step s i).1) s)
        ((kept (fun s i => (step s i).1) keep s inputs).foldl
          (fun t i => (step' t i).1) t) := by
  induction inputs generalizing s t with
  | nil => exact ⟨rfl, hR⟩
  | cons i inputs ih =>
      cases hi : keep s i with
      | true =>
          obtain ⟨hnext, hanswer⟩ := hkeep s t i hR hi
          obtain ⟨hanswers, hend⟩ := ih hnext
          refine ⟨?_, by simpa [kept, emissions, hi] using hend⟩
          simp only [answers, kept, emissions, hi, if_true] at hanswers ⊢
          rw [hanswers, hanswer]
          rfl
      | false =>
          obtain ⟨hanswers, hend⟩ := ih (hskip s t i hR hi)
          refine ⟨?_, by simpa [kept, emissions, hi] using hend⟩
          simpa [answers, kept, emissions, hi] using hanswers

/--
Where the two machines may part, they answer alike exactly if `flag` agrees at
every selected input.
-/
theorem answers_kept_iff {φ : Type} {step : σ → ι → σ × ω}
    {step' : τ → ι → τ × ω} {keep : σ → ι → Bool} {flag : σ → ι → φ}
    {flag' : τ → ι → φ} {R : σ → τ → Prop}
    (hanswer : ∀ s t i, R s t → keep s i = true →
      ((step s i).2 = (step' t i).2 ↔ flag s i = flag' t i))
    (hkeep : ∀ s t i, R s t → keep s i = true → flag s i = flag' t i →
      R (step s i).1 (step' t i).1)
    (hskip : ∀ s t i, R s t → keep s i = false → R (step s i).1 t)
    {s : σ} {t : τ} (hR : R s t) (inputs : List ι) :
    answers step keep s inputs =
        allAnswers step' t (kept (fun s i => (step s i).1) keep s inputs) ↔
      answers (fun s i => ((step s i).1, flag s i)) keep s inputs =
        allAnswers (fun t i => ((step' t i).1, flag' t i)) t
          (kept (fun s i => (step s i).1) keep s inputs) := by
  induction inputs generalizing s t with
  | nil => exact ⟨fun _ => rfl, fun _ => rfl⟩
  | cons i inputs ih =>
      cases hi : keep s i with
      | true =>
          simp only [answers, allAnswers, kept, emissions, hi, if_true,
            List.singleton_append, List.cons.injEq]
          rw [hanswer s t i hR hi]
          exact and_congr_right fun hflag => ih (hkeep s t i hR hi hflag)
      | false =>
          have hrest := ih (hskip s t i hR hi)
          simpa [answers, kept, emissions, hi] using hrest

theorem kept_eq_filter (next : σ → ι → σ) (p : ι → Bool) (s : σ)
    (inputs : List ι) : kept next (fun _ => p) s inputs = inputs.filter p := by
  induction inputs generalizing s with
  | nil => rfl
  | cons i inputs ih =>
      have hrest := ih (next s i)
      unfold kept at hrest ⊢
      rw [emissions, hrest, List.filter_cons]
      split
      · rfl
      · rfl

/-! ## Runs -/

section Runs

variable {step : σ → ι → σ → Prop} {next : σ → ι → σ} {init s : σ}
  {inputs : List ι}

theorem Run.foldl_next (hnext : ∀ s i s', step s i s' → next s i = s')
    (h : Run step init inputs s) : inputs.foldl next init = s := by
  induction h with
  | start => rfl
  | next _ hstep ih =>
      rw [List.foldl_append, ih]
      exact hnext _ _ _ hstep

/--
Leaving inputs out of a run gives a run of the second system, if that system
follows the selected steps and need not move at the others.
-/
theorem Run.kept {step' : τ → ι → τ → Prop} {keep : σ → ι → Bool}
    {R : σ → τ → Prop} {init' : τ}
    (hnext : ∀ s i s', step s i s' → next s i = s')
    (hkeep : ∀ s t i s', R s t → step s i s' → keep s i = true →
      ∃ t', step' t i t' ∧ R s' t')
    (hskip : ∀ s t i s', R s t → step s i s' → keep s i = false → R s' t)
    (hinit : R init init') (h : Run step init inputs s) :
    ∃ t, Run step' init' (Foundation.kept next keep init inputs) t ∧ R s t := by
  induction h with
  | start => exact ⟨init', .start, hinit⟩
  | @next inputs s i s' hrun hstep ih =>
      obtain ⟨t, hrun', hR⟩ := ih
      rw [kept_append, hrun.foldl_next hnext]
      cases hi : keep s i with
      | true =>
          obtain ⟨t', hstep', hR'⟩ := hkeep s t i s' hR hstep hi
          exact ⟨t', .next hrun' hstep', hR'⟩
      | false =>
          refine ⟨t, ?_, hskip s t i s' hR hstep hi⟩
          simpa using hrun'

end Runs

end ClobApi.Foundation
