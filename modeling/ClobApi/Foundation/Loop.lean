/-!
# Loops over a snapshot, with early exit

`forLoop body xs s` runs `body` over the elements of a list that was copied
before the loop.  A body answers `yield` to go on with the next element
(falling off its end, or `continue`) and `done` to leave the loop (`break`).
`visits` lists the states in which the body is entered.
-/

namespace ClobApi.Foundation

variable {σ α : Type}

def forLoop (body : σ → α → ForInStep σ) : List α → σ → σ
  | [], s => s
  | x :: xs, s =>
      match body s x with
      | .done s' => s'
      | .yield s' => forLoop body xs s'

def visits (body : σ → α → ForInStep σ) : List α → σ → List (σ × α)
  | [], _ => []
  | x :: xs, s =>
      (s, x) ::
        match body s x with
        | .done _ => []
        | .yield s' => visits body xs s'

/-- The state a body leaves behind, whether the loop goes on or not. -/
def stepState : ForInStep σ → σ
  | .done s => s
  | .yield s => s

/-- What a body that keeps `Inv` along the loop has to establish. -/
def Continues (Inv : List α → σ → Prop) (Post : σ → Prop) (xs : List α) :
    ForInStep σ → Prop
  | .done s => Post s
  | .yield s => Inv xs s

/--
The invariant rule: `Inv` speaks about the elements still to come, the body
keeps it or leaves with `Post`, and it gives `Post` when no element is left.
-/
theorem forLoop_induction {body : σ → α → ForInStep σ} {Inv : List α → σ → Prop}
    {Post : σ → Prop}
    (hstep : ∀ x xs s, Inv (x :: xs) s → Continues Inv Post xs (body s x))
    (hexit : ∀ s, Inv [] s → Post s) (xs : List α) (s : σ) (hs : Inv xs s) :
    Post (forLoop body xs s) := by
  induction xs generalizing s with
  | nil => exact hexit s hs
  | cons x xs ih =>
      have h := hstep x xs s hs
      unfold forLoop
      cases hbody : body s x with
      | done s' => simpa [hbody, Continues] using h
      | yield s' => exact ih s' (by simpa [hbody, Continues] using h)

theorem forLoop_preserves {P : σ → Prop} {body : σ → α → ForInStep σ}
    (hbody : ∀ s x, P s → P (stepState (body s x))) (xs : List α) (s : σ)
    (hs : P s) : P (forLoop body xs s) := by
  induction xs generalizing s with
  | nil => exact hs
  | cons x xs ih =>
      have h := hbody s x hs
      unfold forLoop
      cases hstep : body s x with
      | done s' => simpa [hstep, stepState] using h
      | yield s' => exact ih s' (by simpa [hstep, stepState] using h)

theorem visits_induction {body : σ → α → ForInStep σ} {Inv : List α → σ → Prop}
    {Post : σ → Prop}
    (hstep : ∀ x xs s, Inv (x :: xs) s → Continues Inv Post xs (body s x))
    (xs : List α) (s : σ) (hs : Inv xs s) :
    ∀ visit ∈ visits body xs s, ∃ rest, Inv (visit.2 :: rest) visit.1 := by
  induction xs generalizing s with
  | nil => simp [visits]
  | cons x xs ih =>
      have h := hstep x xs s hs
      intro visit hvisit
      rw [visits, List.mem_cons] at hvisit
      rcases hvisit with rfl | hvisit
      · exact ⟨xs, hs⟩
      · cases hbody : body s x with
        | done s' => simp [hbody] at hvisit
        | yield s' =>
            rw [hbody] at h hvisit
            exact ih s' h visit hvisit

theorem forLoop_output {β : Type} {body : σ → α → ForInStep σ}
    {out : σ → List β} {produced : σ → α → List β}
    (hbody : ∀ s x, out (stepState (body s x)) = out s ++ produced s x)
    (xs : List α) (s : σ) :
    out (forLoop body xs s) =
      out s ++ (visits body xs s).flatMap fun visit =>
        produced visit.1 visit.2 := by
  induction xs generalizing s with
  | nil => simp [forLoop, visits]
  | cons x xs ih =>
      have h := hbody s x
      rw [forLoop, visits]
      cases hstep : body s x with
      | done s' => simpa [hstep, stepState] using h
      | yield s' =>
          rw [hstep] at h
          simp only [List.flatMap_cons]
          rw [ih s', ← List.append_assoc, ← h]
          rfl

def mapStep {τ : Type} (f : σ → τ) : ForInStep σ → ForInStep τ
  | .done s => .done (f s)
  | .yield s => .yield (f s)

theorem forLoop_map {τ : Type} {body : σ → α → ForInStep σ}
    {body' : τ → α → ForInStep τ} {f : σ → τ}
    (hbody : ∀ s x, body' (f s) x = mapStep f (body s x)) (xs : List α)
    (s : σ) : forLoop body' xs (f s) = f (forLoop body xs s) := by
  induction xs generalizing s with
  | nil => rfl
  | cons x xs ih =>
      unfold forLoop
      rw [hbody]
      cases body s x with
      | done s' => rfl
      | yield s' => exact ih s'

end ClobApi.Foundation
