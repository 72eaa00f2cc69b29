import ClobApi.Foundation.Run

/-!
# Runs that are asked the same

Some labels of a run ask for something and the others are silent.  Where silent
steps keep two systems related, and steps that are asked the same keep them
related too, two runs that are asked the same end in related states.
-/

namespace ClobApi.Foundation

variable {σ τ ℓ ℓ' α : Type}

structure Lockstep (step : σ → ℓ → σ → Prop) (step' : τ → ℓ' → τ → Prop)
    (ask : ℓ → Option α) (ask' : ℓ' → Option α) (R : σ → τ → Prop) : Prop where
  left : ∀ {s t l s₁}, R s t → step s l s₁ → ask l = none → R s₁ t
  right : ∀ {s t l t₁}, R s t → step' t l t₁ → ask' l = none → R s t₁
  both : ∀ {s t l s₁ l' t₁ a}, R s t → step s l s₁ → step' t l' t₁ →
    ask l = some a → ask' l' = some a → R s₁ t₁

variable {step : σ → ℓ → σ → Prop} {step' : τ → ℓ' → τ → Prop}
  {ask : ℓ → Option α} {ask' : ℓ' → Option α} {R : σ → τ → Prop}
  {s₀ s : σ} {t₀ t : τ} {labels : List ℓ} {labels' : List ℓ'}

theorem Lockstep.silent (h : Lockstep step step' ask ask' R) (hstart : R s t₀)
    (hrun : Run step' t₀ labels' t) (hsilent : labels'.filterMap ask' = []) :
    R s t := by
  induction hrun with
  | start => exact hstart
  | @next labels' t l t₁ _ hstep ih =>
      rw [List.filterMap_append, List.append_eq_nil_iff] at hsilent
      refine h.right (ih hsilent.1) hstep ?_
      cases hask : ask' l with
      | none => rfl
      | some a => simp [hask] at hsilent

theorem Lockstep.related (h : Lockstep step step' ask ask' R)
    (hstart : R s₀ t₀) (hrun : Run step s₀ labels s)
    (hrun' : Run step' t₀ labels' t)
    (hasks : labels.filterMap ask = labels'.filterMap ask') : R s t := by
  induction hrun generalizing labels' t with
  | start => exact h.silent hstart hrun' hasks.symm
  | @next labels s l s₁ hbefore hstep ih =>
      rw [List.filterMap_append] at hasks
      cases hask : ask l with
      | none => exact h.left (ih hrun' (by simpa [hask] using hasks)) hstep hask
      | some a =>
          -- the other run answers the same question in its last step that
          -- is not silent
          have hlast : [l].filterMap ask = [a] := by simp [hask]
          rw [hlast] at hasks
          induction hrun' with
          | start => simp at hasks
          | @next labels' t l' t₁ hbefore' hstep' ih' =>
              rw [List.filterMap_append] at hasks
              cases hask' : ask' l' with
              | none =>
                  exact h.right (ih' (by simpa [hask'] using hasks)) hstep'
                    hask'
              | some a' =>
                  have hlast' : [l'].filterMap ask' = [a'] := by simp [hask']
                  rw [hlast'] at hasks
                  obtain ⟨hearlier, hsame⟩ := List.append_inj' hasks rfl
                  obtain rfl := List.singleton_inj.mp hsame
                  exact h.both (ih hbefore' hearlier) hstep hstep' hask hask'

end ClobApi.Foundation
