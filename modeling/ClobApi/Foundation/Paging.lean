import Mathlib.Data.List.Basic

/-!
# Paging through a list

A list is served in pages: its entries from a given key on, at most `limit` of
them.  The client asks again behind the number that the last entry was reported
under and stops at an empty page.
-/

namespace ClobApi.Foundation

section Paging

variable {α β : Type}

def pageOf (key : α → Nat) (render : α → β) (entries : List α)
    (limit start : Nat) : List β :=
  ((entries.filter fun a => start ≤ key a).take limit).map render

/-- A session that begins at a number, and what it has received at its end. -/
inductive Session (page : Nat → List β → Prop) (number : β → Nat) :
    Nat → List β → Prop
  | stop {start : Nat} (empty : page start []) : Session page number start []
  | next {start : Nat} {init rest : List β} {last : β}
      (received : page start (init ++ [last]))
      (later : Session page number (1 + number last) rest) :
      Session page number start (init ++ last :: rest)

variable {key : α → Nat} {render : α → β} {entries : List α} {limit : Nat}
  {number : β → Nat}

theorem mem_pageOf {start : Nat} {b : β}
    (h : b ∈ pageOf key render entries limit start) :
    ∃ a ∈ entries, render a = b := by
  obtain ⟨a, ha, rfl⟩ := List.mem_map.mp h
  exact ⟨a, (List.mem_filter.mp (List.mem_of_mem_take ha)).1, rfl⟩

theorem pageOf_eq_nil (hlimit : 0 < limit) {start : Nat} :
    pageOf key render entries limit start = [] ↔
      ∀ a ∈ entries, key a < start := by
  simp [pageOf, Nat.ne_of_gt hlimit]

theorem filter_behind {taken left : List α} {last : α}
    (hsorted : entries.Pairwise fun a b => key a < key b) {start : Nat}
    (hsplit : (entries.filter fun a => start ≤ key a) =
      taken ++ last :: left) :
    (entries.filter fun a => 1 + key last ≤ key a) = left := by
  have hrest := hsorted.filter fun a => decide (start ≤ key a)
  rw [hsplit, List.pairwise_append, List.pairwise_cons] at hrest
  obtain ⟨-, ⟨hlater, -⟩, hearlier⟩ := hrest
  have hstart : start ≤ key last := by
    have hmem : last ∈ entries.filter fun a => start ≤ key a := by
      rw [hsplit]
      exact List.mem_append_right _ (.head _)
    simpa using (List.mem_filter.mp hmem).2
  have hagain : (entries.filter fun a => 1 + key last ≤ key a) =
      (entries.filter fun a => start ≤ key a).filter
        fun a => 1 + key last ≤ key a := by
    rw [List.filter_filter]
    refine List.filter_congr fun a _ => ?_
    by_cases ha : 1 + key last ≤ key a
    · have hle : start ≤ key a := by omega
      simp [ha, hle]
    · simp [ha]
  have htaken : (taken.filter fun a => 1 + key last ≤ key a) = [] := by
    refine List.filter_eq_nil_iff.mpr fun a ha => ?_
    have hlt := hearlier a ha last (.head _)
    simp only [decide_eq_true_eq]
    omega
  have hleft : (left.filter fun a => 1 + key last ≤ key a) = left := by
    refine List.filter_eq_self.mpr fun a ha => ?_
    have hlt := hlater a ha
    simp only [decide_eq_true_eq]
    omega
  rw [hagain, hsplit, List.filter_append, htaken, List.filter_cons_of_neg
    (by simp), hleft, List.nil_append]

/--
A session receives every entry once, in order, if the entries are reported under
their keys.
-/
theorem Session.complete
    (hsorted : entries.Pairwise fun a b => key a < key b) (hlimit : 0 < limit)
    (hnumber : ∀ a ∈ entries, number (render a) = key a) (start : Nat) :
    Session (fun start page => page = pageOf key render entries limit start)
      number start
      ((entries.filter fun a => start ≤ key a).map render) := by
  -- every page makes the list of the entries still to come shorter
  generalize hlength : (entries.filter fun a => start ≤ key a).length = n
  induction n using Nat.strongRecOn generalizing start with
  | ind n ih =>
      rcases List.eq_nil_or_concat
        ((entries.filter fun a => start ≤ key a).take limit) with
          hnone | ⟨taken, last, htake⟩
      · have hempty : (entries.filter fun a => start ≤ key a) = [] := by
          rcases List.take_eq_nil_iff.mp hnone with hzero | hempty
          · omega
          · exact hempty
        rw [hempty]
        exact .stop (by simp [pageOf, hempty])
      · rw [List.concat_eq_append] at htake
        have hsplit : (entries.filter fun a => start ≤ key a) =
            taken ++ last :: (entries.filter fun a => start ≤ key a).drop
              limit := by
          conv_lhs => rw [← List.take_append_drop limit
            (entries.filter fun a => start ≤ key a), htake]
          simp
        have hlast : number (render last) = key last := by
          refine hnumber last ?_
          have hmem : last ∈ entries.filter fun a => start ≤ key a := by
            rw [hsplit]
            exact List.mem_append_right _ (.head _)
          exact (List.mem_filter.mp hmem).1
        have hbehind := filter_behind hsorted hsplit
        have hshorter : (entries.filter fun a =>
            1 + key last ≤ key a).length < n := by
          rw [hbehind, ← hlength]
          conv_rhs => rw [hsplit]
          simp only [List.length_append, List.length_cons]
          omega
        have hlater := ih _ hshorter (1 + key last) rfl
        rw [hbehind, ← hlast] at hlater
        rw [hsplit, List.map_append, List.map_cons]
        exact .next (by simp [pageOf, htake]) hlater

/--
A session that ends has nothing left to receive, if every entry is reported
under a number below its key: its last page would come back for ever.
-/
theorem Session.none_left (hlimit : 0 < limit)
    (hbelow : ∀ a ∈ entries, number (render a) < key a) {start : Nat}
    {received : List β}
    (h : Session
      (fun start page => page = pageOf key render entries limit start)
      number start received) :
    ∀ a ∈ entries, key a < start := by
  induction h with
  | stop empty => exact (pageOf_eq_nil hlimit).mp empty.symm
  | @next start init rest last received later ih =>
      have hmem : last ∈ pageOf key render entries limit start := by
        rw [← received]
        simp
      obtain ⟨a, ha, rfl⟩ := mem_pageOf hmem
      have hbehind := ih a ha
      have hnumber := hbelow a ha
      omega

end Paging

end ClobApi.Foundation
