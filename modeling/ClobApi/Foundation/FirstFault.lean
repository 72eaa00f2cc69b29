import Mathlib.Data.List.Induction

/-!
# Loops that stop at the first fault

A fault of an entry is judged by the entries before it.  A loop reports the
first one if it gets over every entry without a fault and stops at the first
entry with one; it then ends well exactly on the lists without a fault.
-/

namespace ClobApi.Foundation

variable {α ε σ : Type}

def Faultless (Fault : List α → α → ε → Prop) (entries : List α) : Prop :=
  ∀ before x after, entries = before ++ x :: after →
    ∀ error, ¬ Fault before x error

/-- The answer names a fault of the first entry that has one. -/
def ReportsFirst (Fault : List α → α → ε → Prop) (entries : List α)
    (answer : Except ε σ) : Prop :=
  ∀ before x after, entries = before ++ x :: after → Faultless Fault before →
    (∃ error, Fault before x error) →
      ∃ error, answer = .error error ∧ Fault before x error

section FirstFault

variable {Fault : List α → α → ε → Prop} {entries : List α}

theorem faultless_nil : Faultless Fault [] := by
  intro before x after hsplit
  simp at hsplit

theorem faultless_append {x : α} :
    Faultless Fault (entries ++ [x]) ↔
      Faultless Fault entries ∧ ∀ error, ¬ Fault entries x error := by
  constructor
  · refine fun h => ⟨fun before y after hsplit => ?_, h entries x [] rfl⟩
    exact h before y (after ++ [x]) (by simp [hsplit])
  · rintro ⟨hinit, hlast⟩ before y after hsplit
    rcases List.eq_nil_or_concat after with rfl | ⟨after, z, rfl⟩
    · obtain ⟨rfl, hx⟩ := List.append_inj' hsplit rfl
      exact List.singleton_inj.mp hx ▸ hlast
    · rw [List.concat_eq_append, ← List.cons_append,
        ← List.append_assoc] at hsplit
      exact hinit before y after (List.append_inj' hsplit rfl).1

theorem exists_first_fault (h : ¬ Faultless Fault entries) :
    ∃ before x after, entries = before ++ x :: after ∧ Faultless Fault before ∧
      ∃ error, Fault before x error := by
  induction entries using List.reverseRecOn with
  | nil => exact absurd faultless_nil h
  | append_singleton entries x ih =>
      by_cases hinit : Faultless Fault entries
      · refine ⟨entries, x, [], rfl, hinit, ?_⟩
        by_contra hnone
        exact h (faultless_append.mpr ⟨hinit, not_exists.mp hnone⟩)
      · obtain ⟨before, y, after, rfl, hbefore, hfault⟩ := ih hinit
        exact ⟨before, y, after ++ [x], by simp, hbefore, hfault⟩

theorem ReportsFirst.faultless {s : σ}
    (h : ReportsFirst Fault entries (.ok s : Except ε σ)) :
    Faultless Fault entries := by
  by_contra hfaulty
  obtain ⟨before, x, after, hsplit, hbefore, hfault⟩ :=
    exists_first_fault hfaulty
  obtain ⟨error, hanswer, -⟩ := h before x after hsplit hbefore hfault
  cases hanswer

/-! ## Folds that can fail -/

variable {f : σ → α → Except ε σ} {init : σ}

theorem Faultless.foldlM {P : List α → σ → Prop} (hinit : P [] init)
    (hstep : ∀ {before x s}, P before s → (∀ error, ¬ Fault before x error) →
      ∃ s', f s x = .ok s' ∧ P (before ++ [x]) s')
    (h : Faultless Fault entries) :
    ∃ s, entries.foldlM f init = .ok s ∧ P entries s := by
  induction entries using List.reverseRecOn with
  | nil => exact ⟨init, rfl, hinit⟩
  | append_singleton entries x ih =>
      obtain ⟨hentries, hlast⟩ := faultless_append.mp h
      obtain ⟨s, hfold, hinv⟩ := ih hentries
      obtain ⟨s', hnext, hinv'⟩ := hstep hinv hlast
      refine ⟨s', ?_, hinv'⟩
      rw [List.foldlM_append, hfold]
      simp [bind, Except.bind, hnext, pure, Except.pure]

theorem foldlM_split {before after : List α} {x : α} {s : σ}
    (hbefore : before.foldlM f init = .ok s) :
    (before ++ x :: after).foldlM f init = f s x >>= after.foldlM f := by
  rw [List.foldlM_append, hbefore]
  rfl

theorem exists_step_error {error : ε}
    (h : entries.foldlM f init = .error error) :
    ∃ s, ∃ x ∈ entries, f s x = .error error := by
  induction entries generalizing init with
  | nil => cases h
  | cons x entries ih =>
      rw [List.foldlM_cons] at h
      cases hstep : f init x with
      | error first =>
          rw [hstep] at h
          obtain rfl : first = error := Except.error.inj h
          exact ⟨init, x, .head _, hstep⟩
      | ok s =>
          rw [hstep] at h
          obtain ⟨s', y, hy, herror⟩ := ih h
          exact ⟨s', y, .tail _ hy, herror⟩

end FirstFault

end ClobApi.Foundation
