import Mathlib.Data.List.Induction

/-!
# What an event bars until another one

A history keeps the barred elements off between an opening element and the next
closing one.  Both notions grow with the history, one element at a time.
-/

namespace ClobApi.Foundation

variable {α : Type} {opens bars closes : α → Prop} {history : List α} {x : α}

/-- No barred element follows an opening one without a closing one between. -/
def HeldOff (opens bars closes : α → Prop) (history : List α) : Prop :=
  ∀ before x middle y after, history = before ++ x :: (middle ++ y :: after) →
    opens x → bars y → ∃ z ∈ middle, closes z

def Pending (opens closes : α → Prop) (history : List α) : Prop :=
  ∃ before x middle, history = before ++ x :: middle ∧ opens x ∧
    ∀ z ∈ middle, ¬ closes z

theorem heldOff_nil : HeldOff opens bars closes ([] : List α) := by
  intro before x middle y after h
  simp at h

theorem not_pending_nil : ¬ Pending opens closes ([] : List α) := by
  rintro ⟨before, x, middle, h, -⟩
  simp at h

theorem pending_append :
    Pending opens closes (history ++ [x]) ↔
      opens x ∨ (Pending opens closes history ∧ ¬ closes x) := by
  constructor
  · rintro ⟨before, opening, middle, h, hopens, hclosed⟩
    rcases List.eq_nil_or_concat middle with rfl | ⟨middle, last, rfl⟩
    · obtain ⟨-, hx⟩ := List.append_inj' h rfl
      obtain rfl := List.singleton_inj.mp hx
      exact .inl hopens
    · rw [List.concat_eq_append, ← List.cons_append,
        ← List.append_assoc] at h
      obtain ⟨rfl, hx⟩ := List.append_inj' h rfl
      obtain rfl := List.singleton_inj.mp hx
      exact .inr ⟨⟨before, opening, middle, rfl, hopens,
        fun z hz => hclosed z (by simp [hz])⟩, hclosed x (by simp)⟩
  · rintro (hopens | ⟨⟨before, opening, middle, rfl, hopens, hclosed⟩, hx⟩)
    · exact ⟨history, x, [], rfl, hopens, by simp⟩
    · refine ⟨before, opening, middle ++ [x], by simp, hopens, fun z hz => ?_⟩
      rcases List.mem_append.mp hz with hz | hz
      · exact hclosed z hz
      · rwa [List.mem_singleton.mp hz]

theorem heldOff_append :
    HeldOff opens bars closes (history ++ [x]) ↔
      HeldOff opens bars closes history ∧
        (bars x → ¬ Pending opens closes history) := by
  constructor
  · refine fun h => ⟨fun before y middle z after hsplit => ?_, fun hbars => ?_⟩
    · exact h before y middle z (after ++ [x]) (by simp [hsplit])
    · rintro ⟨before, y, middle, rfl, hopens, hclosed⟩
      obtain ⟨z, hz, hcloses⟩ := h before y middle x [] (by simp) hopens hbars
      exact hclosed z hz hcloses
  · rintro ⟨h, hlast⟩ before y middle z after hsplit hopens hbars
    rcases List.eq_nil_or_concat after with rfl | ⟨after, last, rfl⟩
    · rw [← List.cons_append, ← List.append_assoc] at hsplit
      obtain ⟨rfl, hx⟩ := List.append_inj' hsplit rfl
      obtain rfl := List.singleton_inj.mp hx
      by_contra hnone
      exact hlast hbars ⟨before, y, middle, rfl, hopens,
        fun w hw hcloses => hnone ⟨w, hw, hcloses⟩⟩
    · rw [List.concat_eq_append, ← List.cons_append, ← List.append_assoc,
        ← List.cons_append, ← List.append_assoc] at hsplit
      obtain ⟨rfl, -⟩ := List.append_inj' hsplit rfl
      exact h before y middle z after (by simp) hopens hbars

theorem HeldOff.append_neutral {later : List α}
    (h : HeldOff opens bars closes history)
    (hneutral : ∀ z ∈ later, ¬ opens z ∧ ¬ bars z) :
    HeldOff opens bars closes (history ++ later) ∧
      (Pending opens closes (history ++ later) →
        Pending opens closes history) := by
  induction later using List.reverseRecOn with
  | nil => simpa using h
  | append_singleton later z ih =>
      obtain ⟨hheld, hpending⟩ := ih fun w hw => hneutral w (by simp [hw])
      obtain ⟨hopens, hbars⟩ := hneutral z (by simp)
      rw [← List.append_assoc, heldOff_append, pending_append]
      exact ⟨⟨hheld, fun hz => absurd hz hbars⟩, fun hz =>
        hpending (hz.resolve_left hopens).1⟩

end ClobApi.Foundation
