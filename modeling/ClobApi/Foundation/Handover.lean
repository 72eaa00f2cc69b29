/-!
# From a copy of the history to a live inbox

A log is published item by item, and a reader's inbox takes what is published.
The reader forwards the wanted part of a copy of the log, then the wanted part
of its inbox.  No wanted item of the log is skipped, whatever is appended and
published meanwhile.
-/

namespace ClobApi.Foundation

variable {α : Type}

/-- What a reader has done with a feed. -/
structure Handover (α : Type) where
  log : List α
  published : List α
  /-- what is left of the copy -/
  copy : List α
  inbox : List α
  forwarded : List α

namespace Handover

variable (wanted : α → Prop)

def NoGap (t : Handover α) : Prop :=
  ∀ a ∈ t.log, wanted a →
    a ∈ t.forwarded ∨ a ∈ t.copy ∨ a ∈ t.inbox ∨ a ∉ t.published

inductive Move (t : Handover α) : Handover α → Prop
  | append (new : List α) (fresh : ∀ a ∈ new, a ∉ t.published) :
      Move t { t with log := t.log ++ new }
  | publish (a : α) :
      Move t { t with published := t.published ++ [a], inbox := t.inbox ++ [a] }
  | replay {a : α} {rest : List α} (next : t.copy = a :: rest) :
      Move t { t with copy := rest, forwarded := t.forwarded ++ [a] }
  | forward {a : α} {rest : List α} (next : t.inbox = a :: rest) :
      Move t { t with inbox := rest, forwarded := t.forwarded ++ [a] }
  | skip {a : α} {rest : List α} (next : t.inbox = a :: rest)
      (unwanted : ¬ wanted a) : Move t { t with inbox := rest }
  | other (a : α) : Move t { t with forwarded := t.forwarded ++ [a] }
  | idle : Move t t

variable {wanted} {t t' : Handover α}

theorem noGap_copy (h : ∀ a ∈ t.log, wanted a → a ∈ t.copy) :
    t.NoGap wanted :=
  fun a ha hwanted => .inr (.inl (h a ha hwanted))

theorem NoGap.move (h : t.NoGap wanted) (hmove : t.Move wanted t') :
    t'.NoGap wanted := by
  intro a ha hwanted
  cases hmove with
  | append new fresh =>
      rcases List.mem_append.mp ha with hold | hnew
      · exact h a hold hwanted
      · exact .inr (.inr (.inr (fresh a hnew)))
  | publish b =>
      rcases h a ha hwanted with hdone | hcopy | hinbox | hlater
      · exact .inl hdone
      · exact .inr (.inl hcopy)
      · exact .inr (.inr (.inl (List.mem_append_left _ hinbox)))
      · by_cases hsame : a = b
        · exact .inr (.inr (.inl (by simp [hsame])))
        · exact .inr (.inr (.inr (by simp [hlater, hsame])))
  | @replay b rest next =>
      rcases h a ha hwanted with hdone | hcopy | hothers
      · exact .inl (List.mem_append_left _ hdone)
      · rw [next] at hcopy
        rcases List.mem_cons.mp hcopy with rfl | hrest
        · exact .inl (by simp)
        · exact .inr (.inl hrest)
      · exact .inr (.inr hothers)
  | @forward b rest next =>
      rcases h a ha hwanted with hdone | hcopy | hinbox | hlater
      · exact .inl (List.mem_append_left _ hdone)
      · exact .inr (.inl hcopy)
      · rw [next] at hinbox
        rcases List.mem_cons.mp hinbox with rfl | hrest
        · exact .inl (by simp)
        · exact .inr (.inr (.inl hrest))
      · exact .inr (.inr (.inr hlater))
  | @skip b rest next unwanted =>
      rcases h a ha hwanted with hdone | hcopy | hinbox | hlater
      · exact .inl hdone
      · exact .inr (.inl hcopy)
      · rw [next] at hinbox
        rcases List.mem_cons.mp hinbox with rfl | hrest
        · exact absurd hwanted unwanted
        · exact .inr (.inr (.inl hrest))
      · exact .inr (.inr (.inr hlater))
  | other b =>
      exact (h a ha hwanted).imp_left (List.mem_append_left _)
  | idle => exact h a ha hwanted

end Handover

end ClobApi.Foundation
