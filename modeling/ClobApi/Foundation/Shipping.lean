import Mathlib.Data.List.Nodup
import Mathlib.Data.List.Range
import Mathlib.Logic.Function.Basic

/-!
# Shipping the tail of a log

Workers append to one log and ship it to a sink.  A worker remembers how long
the log was before its own entries, later copies everything after that point,
and puts the copy into the sink; it may also give up on the way.  An entry is
shipped as a list of items, and every item carries the number of its entry.
-/

namespace ClobApi.Foundation

variable {ι α β σ : Type}

/-! ## Items -/

structure Rendering (α β : Type) where
  entryNumber : α → Nat
  render : α → List β
  number : β → Nat
  render_ne_nil : ∀ entry, render entry ≠ []
  render_nodup : ∀ entry, (render entry).Nodup
  render_number : ∀ entry, ∀ item ∈ render entry,
    number item = entryNumber entry

namespace Rendering

variable (r : Rendering α β)

def Numbered (log : List α) : Prop :=
  log.map r.entryNumber = List.range' 1 log.length

def renderAll (entries : List α) : List β := entries.flatMap r.render

variable {r} {log : List α}

theorem renderAll_append (entries entries' : List α) :
    r.renderAll (entries ++ entries') =
      r.renderAll entries ++ r.renderAll entries' :=
  List.flatMap_append

theorem window_append {base k : Nat} (hbase : base ≤ k) (hk : k ≤ log.length) :
    (log.take k).drop base ++ log.drop k = log.drop base := by
  rw [← List.drop_append_of_le_length, List.take_append_drop]
  rwa [List.length_take_of_le hk]

theorem renderAll_window {base k : Nat} (hbase : base ≤ k)
    (hk : k ≤ log.length) :
    r.renderAll ((log.take k).drop base) ++ r.renderAll (log.drop k) =
      r.renderAll (log.drop base) := by
  rw [← renderAll_append, window_append hbase hk]

theorem Numbered.mem_tail (h : r.Numbered log) (seen n : Nat) :
    (∃ entry ∈ log.drop seen, r.entryNumber entry = n) ↔
      seen < n ∧ n ≤ log.length := by
  rw [← List.mem_map, List.map_drop, h, List.drop_range', List.mem_range'_1]
  omega

theorem Numbered.take (h : r.Numbered log) (k : Nat) :
    r.Numbered (log.take k) := by
  unfold Numbered
  rw [List.map_take, h, List.length_take]
  rcases Nat.le_total log.length k with hle | hle
  · rw [List.take_range'_of_length_le hle, Nat.min_eq_right hle]
  · rw [List.take_range'_of_length_ge hle, Nat.min_eq_left hle]

theorem mem_renderAll {entries : List α} {n : Nat} :
    (∃ item ∈ r.renderAll entries, r.number item = n) ↔
      ∃ entry ∈ entries, r.entryNumber entry = n := by
  constructor
  · rintro ⟨item, hitem, rfl⟩
    obtain ⟨entry, hentry, hmem⟩ := List.mem_flatMap.mp hitem
    exact ⟨entry, hentry, (r.render_number entry item hmem).symm⟩
  · rintro ⟨entry, hentry, rfl⟩
    obtain ⟨item, hitem⟩ := List.exists_mem_of_ne_nil _ (r.render_ne_nil entry)
    exact ⟨item, List.mem_flatMap.mpr ⟨entry, hentry, hitem⟩,
      r.render_number entry item hitem⟩

theorem Numbered.mem_renderTail (h : r.Numbered log) (seen n : Nat) :
    (∃ item ∈ r.renderAll (log.drop seen), r.number item = n) ↔
      seen < n ∧ n ≤ log.length :=
  mem_renderAll.trans (h.mem_tail seen n)

theorem Numbered.pairwise (h : r.Numbered log) :
    log.Pairwise fun a b => r.entryNumber a < r.entryNumber b := by
  have hpairwise : (log.map r.entryNumber).Pairwise (· < ·) := by
    rw [h]
    exact List.pairwise_lt_range'
  exact List.pairwise_map.mp hpairwise

theorem nodup_renderAll {entries : List α}
    (h : entries.Pairwise fun a b => r.entryNumber a < r.entryNumber b) :
    (r.renderAll entries).Nodup := by
  refine List.nodup_flatMap.mpr
    ⟨fun entry _ => r.render_nodup entry, h.imp fun hlt => ?_⟩
  intro item ha hb
  rw [← r.render_number _ item ha, ← r.render_number _ item hb] at hlt
  exact Nat.lt_irrefl _ hlt

theorem sorted_renderAll {entries : List α}
    (h : entries.Pairwise fun a b => r.entryNumber a < r.entryNumber b) :
    (r.renderAll entries).Pairwise fun x y => r.number x ≤ r.number y := by
  refine List.pairwise_flatMap.mpr
    ⟨fun entry _ => ?_, h.imp fun hlt x hx y hy => ?_⟩
  · refine List.pairwise_of_forall_mem_list fun x hx y hy => ?_
    rw [r.render_number entry x hx, r.render_number entry y hy]
  · rw [r.render_number _ x hx, r.render_number _ y hy]
    exact Nat.le_of_lt hlt

end Rendering

/-! ## Workers -/

/-- How entries become items, and where the items go. -/
structure Route (α β σ : Type) extends Rendering α β where
  put : σ → List β → σ
  Holds : σ → Nat → Prop
  holds_put : ∀ sink chunk n,
    Holds (put sink chunk) n ↔ Holds sink n ∨ ∃ item ∈ chunk, number item = n

/--
What a worker has yet to ship: the log after `seen`, or the items it has copied.
-/
inductive Debt (β : Type) where
  | tail (seen : Nat)
  | batch (items : List β)

structure Shipping (ι α β σ : Type) where
  log : List α
  debts : ι → Debt β
  sink : σ

/-- What a step of a worker means to the sink. -/
inductive Act (β : Type) where
  | rest
  | append
  | copy
  | put (chunk : List β)
  | leave
  | fail

def Act.GivesUp : Act β → Prop
  | .leave | .fail => True
  | _ => False

def Debt.items : Debt β → List β
  | .tail _ => []
  | .batch items => items

section Steps

variable [DecidableEq ι] (route : Route α β σ)

inductive Ship (i : ι) : Act β → Shipping ι α β σ → Shipping ι α β σ → Prop
  | rest (t : Shipping ι α β σ) : Ship i .rest t t
  | append {t : Shipping ι α β σ} (new : List α)
      (clear : t.debts i = .batch []) :
      Ship i .append t
        { t with
          log := t.log ++ new
          debts := Function.update t.debts i (.tail t.log.length) }
  | copy {t : Shipping ι α β σ} {seen : Nat} (behind : t.debts i = .tail seen) :
      Ship i .copy t
        { t with
          debts := Function.update t.debts i
            (.batch (route.renderAll (t.log.drop seen))) }
  | put {t : Shipping ι α β σ} {chunk rest : List β}
      (copied : t.debts i = .batch (chunk ++ rest)) :
      Ship i (.put chunk) t
        { t with
          debts := Function.update t.debts i (.batch rest)
          sink := route.put t.sink chunk }
  | leave {t : Shipping ι α β σ} (new : List α)
      (empty : (t.debts i).items = []) :
      Ship i .leave t
        { t with
          log := t.log ++ new
          debts := Function.update t.debts i (.batch []) }
  | fail {t : Shipping ι α β σ} {items : List β}
      (copied : t.debts i = .batch items) :
      Ship i .fail t { t with debts := Function.update t.debts i (.batch []) }

variable {route}

theorem Ship.leave_unchanged {i : ι} {t : Shipping ι α β σ}
    (h : (t.debts i).items = []) :
    Ship route i .leave t
      { t with debts := Function.update t.debts i (.batch []) } := by
  have hleave : Ship route i .leave t _ := .leave [] h
  rwa [List.append_nil] at hleave

theorem Ship.sink_put {i : ι} {t t' : Shipping ι α β σ} {chunk : List β}
    (h : Ship route i (.put chunk) t t') :
    t'.sink = route.put t.sink chunk := by
  cases h
  rfl

theorem Ship.put_all {i : ι} {t : Shipping ι α β σ} {items : List β}
    (h : t.debts i = .batch items) :
    Ship route i (.put items) t
      { t with
        debts := Function.update t.debts i (.batch [])
        sink := route.put t.sink items } :=
  .put (by rw [h, List.append_nil])

end Steps

/-! ## Accounting -/

section Accounting

variable (route : Route α β σ)

def Debt.Owes (n : Nat) : Debt β → Prop
  | .tail seen => seen < n
  | .batch items => ∃ item ∈ items, route.number item = n

/-- Every entry after `base` is in the sink or owed by a worker. -/
def AccountedFor (base : Nat) (t : Shipping ι α β σ) : Prop :=
  ∀ n, base < n → n ≤ t.log.length →
    route.Holds t.sink n ∨ ∃ i, (t.debts i).Owes route n

/-- Up to `length` this already holds without the worker `i`. -/
def Covered (base : Nat) (i : ι) (t : Shipping ι α β σ) (length : Nat) : Prop :=
  ∀ n, base < n → n ≤ length →
    route.Holds t.sink n ∨ ∃ j, j ≠ i ∧ (t.debts j).Owes route n

variable {route}

theorem accounted_split (base : Nat) (i : ι) (t : Shipping ι α β σ) :
    AccountedFor route base t ↔ ∀ n, base < n → n ≤ t.log.length →
      route.Holds t.sink n ∨ (t.debts i).Owes route n ∨
        ∃ j, j ≠ i ∧ (t.debts j).Owes route n := by
  have hsplit : ∀ n, (∃ j, (t.debts j).Owes route n) ↔
      (t.debts i).Owes route n ∨ ∃ j, j ≠ i ∧ (t.debts j).Owes route n := by
    grind
  simp only [AccountedFor, hsplit]

theorem accounted_update [DecidableEq ι] (base : Nat) (i : ι) (log : List α)
    (debts : ι → Debt β) (debt : Debt β) (sink : σ) :
    AccountedFor route base ⟨log, Function.update debts i debt, sink⟩ ↔
      ∀ n, base < n → n ≤ log.length →
        route.Holds sink n ∨ debt.Owes route n ∨ ∃ j, j ≠ i ∧
          (debts j).Owes route n := by
  have hupdate : ∀ n, (∃ j, (Function.update debts i debt j).Owes route n) ↔
      debt.Owes route n ∨ ∃ j, j ≠ i ∧ (debts j).Owes route n :=
    fun n => Function.exists_update_iff debts fun _ debt => debt.Owes route n
  simp only [AccountedFor, hupdate]

@[simp] theorem not_owes_nil (n : Nat) : ¬ (Debt.batch []).Owes route n := by
  simp [Debt.Owes]

/--
A step loses sight of an entry exactly when it gives up what no other worker
owes.
-/
theorem Ship.accounted_iff [DecidableEq ι] {i : ι} {act : Act β}
    {t t' : Shipping ι α β σ} (h : Ship route i act t t')
    (hlog : route.Numbered t.log) (base : Nat) :
    AccountedFor route base t' ↔
      AccountedFor route base t ∧
        (act.GivesUp → Covered route base i t t'.log.length) := by
  cases h with
  | rest => simp [Act.GivesUp]
  | append new clear =>
      rw [accounted_update, accounted_split base i, clear]
      simp only [List.length_append, Act.GivesUp, false_implies, and_true,
        not_owes_nil, false_or]
      constructor
      · intro h n hbase hn
        rcases h n hbase (by omega) with hheld | howes | hother
        · exact .inl hheld
        · exact absurd hn (Nat.not_le.mpr howes)
        · exact .inr hother
      · intro h n hbase hn
        rcases Nat.lt_or_ge t.log.length n with hlt | hge
        · exact .inr (.inl hlt)
        · exact (h n hbase hge).imp_right .inr
  | @copy t seen behind =>
      rw [accounted_update, accounted_split base i, behind]
      simp only [Act.GivesUp, false_implies, and_true]
      refine forall₃_congr fun n hbase hn => ?_
      have hitems :
          (Debt.batch (route.renderAll (t.log.drop seen))).Owes route n ↔
            (Debt.tail (β := β) seen).Owes route n :=
        (hlog.mem_renderTail seen n).trans (and_iff_left hn)
      rw [hitems]
  | @put t chunk rest copied =>
      rw [accounted_update, accounted_split base i, copied]
      simp only [Act.GivesUp, false_implies, and_true]
      refine forall₃_congr fun n hbase hn => ?_
      simp only [route.holds_put, Debt.Owes, List.mem_append, or_and_right,
        exists_or, or_assoc]
  | leave new empty =>
      rw [accounted_update, accounted_split base i]
      simp only [Act.GivesUp, true_implies, not_owes_nil, false_or, Covered]
      refine ⟨fun h => ⟨fun n hbase hn => ?_, h⟩, And.right⟩
      exact (h n hbase (by simp; omega)).imp_right .inr
  | fail copied =>
      rw [accounted_update, accounted_split base i]
      simp only [Act.GivesUp, true_implies, not_owes_nil, false_or, Covered]
      refine ⟨fun h => ⟨fun n hbase hn => ?_, h⟩, And.right⟩
      exact (h n hbase hn).imp_right .inr

theorem AccountedFor.holds {base : Nat} {t : Shipping ι α β σ}
    (h : AccountedFor route base t) (hclear : ∀ i, t.debts i = .batch [])
    {n : Nat} (hbase : base < n) (hn : n ≤ t.log.length) :
    route.Holds t.sink n := by
  rcases h n hbase hn with hheld | ⟨i, howes⟩
  · exact hheld
  · rw [hclear i] at howes
    exact absurd howes (not_owes_nil n)

end Accounting

end ClobApi.Foundation
