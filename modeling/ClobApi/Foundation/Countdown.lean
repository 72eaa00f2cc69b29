import ClobApi.Foundation.Run
import Mathlib.Data.DFinsupp.WellFounded

/-!
# Processes that count down

Where a step lowers the rank of the process that takes it and leaves the ranks
of the others alone, finitely many processes come to an end in whatever order
they step.
-/

namespace ClobApi.Foundation

variable {σ ι ℓ α : Type} [Preorder α] {step : σ → ι × ℓ → σ → Prop}
  {rank : σ → ι → α}

structure CountsDown (step : σ → ι × ℓ → σ → Prop)
    (rank : σ → ι → α) : Prop where
  frame : ∀ s label s', step s label s' → ∀ i, i ≠ label.1 →
    rank s' i = rank s i
  lower : ∀ s label s', step s label s' → rank s' label.1 < rank s label.1

theorem CountsDown.ranks_lt (h : CountsDown step rank) (S : Finset ι)
    {s s' : σ} {label : ι × ℓ} (hlabel : label.1 ∈ S)
    (hstep : step s label s') :
    (fun i : S => rank s' i) < fun i : S => rank s i := by
  refine Pi.lt_def.mpr ⟨fun i => ?_, ⟨label.1, hlabel⟩,
    h.lower s label s' hstep⟩
  by_cases hi : i.val = label.1
  · dsimp only
    rw [hi]
    exact (h.lower s label s' hstep).le
  · exact (h.frame s label s' hstep i hi).le

theorem CountsDown.wellFounded [WellFoundedLT α] (h : CountsDown step rank)
    (S : Finset ι) :
    WellFounded fun s' s => ∃ label, label.1 ∈ S ∧ step s label s' := by
  refine Subrelation.wf ?_ (InvImage.wf (fun s => fun i : S => rank s i)
    (wellFounded_lt (α := S → α)))
  rintro s' s ⟨label, hlabel, hstep⟩
  exact h.ranks_lt S hlabel hstep

/-- The chosen processes do not step forever. -/
theorem CountsDown.finite [WellFoundedLT α] (h : CountsDown step rank)
    (S : Finset ι) (states : ℕ → σ) :
    ¬ ∀ n, ∃ label, label.1 ∈ S ∧ step (states n) label (states (n + 1)) :=
  fun hsteps => (wellFounded_iff_isEmpty_descending_chain.mp
    (h.wellFounded S)).false ⟨states, hsteps⟩

theorem Run.cons {init m s : σ} {l : ι × ℓ} {labels : List (ι × ℓ)}
    (hfirst : step init l m) (h : Run step m labels s) :
    Run step init (l :: labels) s := by
  induction h with
  | start => exact .next .start hfirst
  | next _ hlast ih => exact ih.next hlast

/-- From every state the chosen processes can step until none of them can. -/
theorem CountsDown.exists_end [WellFoundedLT α] (h : CountsDown step rank)
    (S : Finset ι) (s : σ) :
    ∃ labels s', (∀ label ∈ labels, label.1 ∈ S) ∧ Run step s labels s' ∧
      ∀ label, label.1 ∈ S → ∀ s'', ¬ step s' label s'' := by
  induction s using (h.wellFounded S).induction with
  | h s ih =>
      by_cases hend : ∃ label, label.1 ∈ S ∧ ∃ m, step s label m
      · obtain ⟨label, hlabel, m, hstep⟩ := hend
        obtain ⟨labels, s', hlabels, hrun, hlast⟩ := ih m ⟨label, hlabel, hstep⟩
        refine ⟨label :: labels, s', ?_, hrun.cons hstep, hlast⟩
        intro other hother
        rcases List.mem_cons.mp hother with rfl | hother
        · exact hlabel
        · exact hlabels other hother
      · exact ⟨[], s, nofun, .start, fun label hlabel s'' hstep =>
          hend ⟨label, hlabel, s'', hstep⟩⟩

end ClobApi.Foundation
