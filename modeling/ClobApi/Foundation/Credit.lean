import Mathlib.Data.List.Forall2
import Mathlib.Data.List.Nodup
import Mathlib.Data.List.Perm.Subperm

/-!
# Work that is done once

A list grows while parties finish their work.  Each party adds one item at most,
and every item is the work of one party: what a party has made tells which item
is its own.
-/

namespace ClobApi.Foundation

variable {ι α : Type} {made made' : ι → α → Prop} {items : List α}

/-- Each item is credited to one party, and no party made anything else. -/
def Credited (items : List α) (made : ι → α → Prop) : Prop :=
  ∃ credits : List (ι × α), credits.map Prod.snd = items ∧
    (credits.map Prod.fst).Nodup ∧
    ∀ i a, (i, a) ∈ credits ↔ made i a

theorem Credited.nil (h : ∀ i a, ¬ made i a) : Credited [] made :=
  ⟨[], rfl, .nil, fun i a => iff_of_false List.not_mem_nil (h i a)⟩

theorem Credited.congr (h : Credited items made)
    (hsame : ∀ i a, made' i a ↔ made i a) : Credited items made' := by
  obtain ⟨credits, hitems, hnodup, hmade⟩ := h
  exact ⟨credits, hitems, hnodup, fun i a => (hmade i a).trans (hsame i a).symm⟩

theorem Credited.append (h : Credited items made) {i : ι} {a : α}
    (hidle : ∀ b, ¬ made i b) (hmakes : ∀ b, made' i b ↔ b = a)
    (hothers : ∀ j b, j ≠ i → (made' j b ↔ made j b)) :
    Credited (items ++ [a]) made' := by
  obtain ⟨credits, hitems, hnodup, hmade⟩ := h
  refine ⟨credits ++ [(i, a)], by rw [List.map_append, hitems]; rfl, ?_,
    fun j b => ?_⟩
  · rw [List.map_append, List.nodup_append]
    refine ⟨hnodup, List.nodup_singleton _, fun j hj k hk => ?_⟩
    obtain rfl := List.mem_singleton.mp hk
    obtain ⟨⟨k, b⟩, hmem, rfl⟩ := List.mem_map.mp hj
    rintro rfl
    exact hidle b ((hmade _ _).mp hmem)
  · rw [List.mem_append, List.mem_singleton, hmade]
    by_cases hj : j = i
    · subst hj
      simp [hidle, hmakes]
    · simp [hothers j b hj, hj]

theorem Credited.unique (h : Credited items made) (hnodup : items.Nodup)
    {i j : ι} {a : α} (hi : made i a) (hj : made j a) : i = j := by
  obtain ⟨credits, rfl, -, hmade⟩ := h
  exact congrArg Prod.fst (List.inj_on_of_nodup_map hnodup
    ((hmade i a).mpr hi) ((hmade j a).mpr hj) rfl)

theorem Credited.mem (h : Credited items made) {i : ι} {a : α}
    (hi : made i a) : a ∈ items := by
  obtain ⟨credits, rfl, -, hmade⟩ := h
  exact List.mem_map_of_mem ((hmade i a).mpr hi)

theorem exists_forall₂ {β : Type} {r : α → β → Prop} {l : List α}
    (h : ∀ a ∈ l, ∃ b, r a b) :
    ∃ l', List.Forall₂ r l l' ∧ ∀ b ∈ l', ∃ a ∈ l, r a b := by
  induction l with
  | nil => exact ⟨[], .nil, by simp⟩
  | cons a l ih =>
      obtain ⟨b, hb⟩ := h a List.mem_cons_self
      obtain ⟨l', hl', hmem⟩ := ih fun a' ha' =>
        h a' (List.mem_cons_of_mem _ ha')
      refine ⟨b :: l', .cons hb hl', fun b' hb' => ?_⟩
      rcases List.mem_cons.mp hb' with rfl | hold
      · exact ⟨a, List.mem_cons_self, hb⟩
      · obtain ⟨a', ha', hr⟩ := hmem b' hold
        exact ⟨a', List.mem_cons_of_mem _ ha', hr⟩

/--
Where whoever makes an item of the one list has made one of the other, each item
of the one list is paired with what its maker has made of the other.
-/
theorem Credited.partners {β : Type} {items' : List β}
    {made' : ι → β → Prop} (h : Credited items made)
    (h' : Credited items' made') (hmakes : ∀ i a, made i a → ∃ b, made' i b) :
    ∃ partners : List (ι × β),
      List.Forall₂ (fun a p => made p.1 a ∧ made' p.1 p.2) items partners ∧
      (partners.map Prod.fst).Nodup ∧
      (partners.map Prod.snd).Subperm items' := by
  obtain ⟨credits, rfl, hnodup, hmade⟩ := h
  obtain ⟨credits', rfl, hnodup', hmade'⟩ := h'
  obtain ⟨partners, hpairs, hmem⟩ := exists_forall₂ (l := credits)
    (r := fun x y : ι × _ => x.1 = y.1 ∧ made y.1 x.2 ∧ made' y.1 y.2)
    fun x hx => by
      have hx := (hmade _ _).mp hx
      obtain ⟨b, hb⟩ := hmakes x.1 x.2 hx
      exact ⟨(x.1, b), rfl, hx, hb⟩
  have hparties : credits.map Prod.fst = partners.map Prod.fst := by
    rw [← List.forall₂_eq_eq_eq, List.forall₂_map_left_iff,
      List.forall₂_map_right_iff]
    exact hpairs.imp fun _ _ hxy => hxy.1
  rw [hparties] at hnodup
  have hsub : partners ⊆ credits' := fun y hy => by
    obtain ⟨x, -, -, -, hy'⟩ := hmem y hy
    exact (hmade' y.1 y.2).mpr hy'
  obtain ⟨same, hsame, hwithin⟩ := hnodup.of_map.subperm hsub
  refine ⟨partners, ?_, hnodup, same.map Prod.snd, hsame.map _,
    hwithin.map _⟩
  rw [List.forall₂_map_left_iff]
  exact hpairs.imp fun _ _ hxy => hxy.2

end ClobApi.Foundation
