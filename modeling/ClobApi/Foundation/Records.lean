import Mathlib.Data.List.Basic

/-!
# Sections of records

Records written one after the other, with no count in front of them.  Where the
text of one list of records can be read as another list, the lists part in one
of few ways.
-/

namespace ClobApi.Foundation

variable {α β : Type}

theorem length_section {enc : α → List β} {size : Nat}
    (h : ∀ a, (enc a).length = size) (l : List α) :
    (l.flatMap enc).length = size * l.length := by
  simp [List.length_flatMap, h, Nat.mul_comm]

/-- The text of a record can be told from whatever follows it. -/
def PrefixFree (enc : α → List β) : Prop :=
  ∀ {a a' : α} {rest rest' : List β},
    enc a ++ rest = enc a' ++ rest' → a = a' ∧ rest = rest'

/--
The second list goes on where the first ends, and what follows the first is read
as the rest of the second and what follows that.
-/
def Overruns (enc : α → List β) (l l' : List α) (rest rest' : List β) : Prop :=
  ∃ extra, extra ≠ [] ∧ l' = l ++ extra ∧ rest = extra.flatMap enc ++ rest'

/-- From some point on two lists have different records but the same text. -/
def Parts (enc : α → List β) (l l' : List α) : Prop :=
  ∃ common a a' after after', l = common ++ a :: after ∧
    l' = common ++ a' :: after' ∧ a ≠ a' ∧
    (a :: after).flatMap enc = (a' :: after').flatMap enc

/--
Behind records that can be told from what follows, the texts go on alike or one
list overruns the other.
-/
theorem PrefixFree.append_eq_iff {enc : α → List β} (h : PrefixFree enc)
    {l l' : List α} {rest rest' : List β} :
    l.flatMap enc ++ rest = l'.flatMap enc ++ rest' ↔
      (l = l' ∧ rest = rest') ∨ Overruns enc l l' rest rest' ∨
        Overruns enc l' l rest' rest := by
  constructor
  · intro htext
    induction l generalizing l' with
    | nil =>
        cases l' with
        | nil => exact .inl ⟨rfl, htext⟩
        | cons a' l' =>
            exact .inr (.inl ⟨a' :: l', List.cons_ne_nil _ _, rfl, htext⟩)
    | cons a l ih =>
        cases l' with
        | nil =>
            exact .inr (.inr ⟨a :: l, List.cons_ne_nil _ _, rfl, htext.symm⟩)
        | cons a' l' =>
            simp only [List.flatMap_cons, List.append_assoc] at htext
            obtain ⟨rfl, hrest⟩ := h htext
            rcases ih hrest with ⟨rfl, hsame⟩ |
              ⟨extra, hne, rfl, hover⟩ | ⟨extra, hne, rfl, hover⟩
            · exact .inl ⟨rfl, hsame⟩
            · exact .inr (.inl ⟨extra, hne, rfl, hover⟩)
            · exact .inr (.inr ⟨extra, hne, rfl, hover⟩)
  · rintro (⟨rfl, rfl⟩ | ⟨extra, -, rfl, rfl⟩ | ⟨extra, -, rfl, rfl⟩)
    · rfl
    · rw [List.flatMap_append, List.append_assoc]
    · rw [List.flatMap_append, List.append_assoc]

theorem PrefixFree.flatMap_inj {enc : α → List β} (h : PrefixFree enc)
    (hnonempty : ∀ a, enc a ≠ []) {l l' : List α} :
    l.flatMap enc = l'.flatMap enc ↔ l = l' := by
  constructor
  · intro htext
    have hends : ∀ {l l' : List α}, ¬ Overruns enc l l' [] [] := by
      rintro l l' ⟨extra, hne, -, hextra⟩
      obtain ⟨a, rest, rfl⟩ := List.exists_cons_of_ne_nil hne
      simp [hnonempty] at hextra
    rw [← List.append_nil (l.flatMap enc), ← List.append_nil (l'.flatMap enc),
      h.append_eq_iff] at htext
    rcases htext with ⟨hsame, -⟩ | hover | hover
    · exact hsame
    · exact absurd hover hends
    · exact absurd hover hends
  · rintro rfl
    rfl

section Parts

variable {enc : α → List β} {l l' : List α}

theorem Parts.cons (h : Parts enc l l') (a : α) :
    Parts enc (a :: l) (a :: l') := by
  obtain ⟨common, b, b', after, after', rfl, rfl, hne, htext⟩ := h
  exact ⟨a :: common, b, b', after, after', rfl, rfl, hne, htext⟩

/-- Lists of nonempty records have the same text only if they part. -/
theorem flatMap_eq_iff_parts (hnonempty : ∀ a, enc a ≠ []) :
    l.flatMap enc = l'.flatMap enc ↔ l = l' ∨ Parts enc l l' := by
  constructor
  · intro htext
    induction l generalizing l' with
    | nil =>
        cases l' with
        | nil => exact .inl rfl
        | cons a' l' => simp [hnonempty] at htext
    | cons a l ih =>
        cases l' with
        | nil => simp [hnonempty] at htext
        | cons a' l' =>
            by_cases ha : a = a'
            · subst ha
              rw [List.flatMap_cons, List.flatMap_cons,
                List.append_cancel_left_eq] at htext
              rcases ih htext with rfl | hparts
              · exact .inl rfl
              · exact .inr (hparts.cons a)
            · exact .inr ⟨[], a, a', l, l', rfl, rfl, ha, htext⟩
  · rintro (rfl | ⟨common, a, a', after, after', rfl, rfl, -, htext⟩)
    · rfl
    · rw [List.flatMap_append, List.flatMap_append, htext]

end Parts

end ClobApi.Foundation
