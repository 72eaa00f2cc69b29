import ClobApi.Events
import Mathlib.Data.List.Sort

/-!
# The Postgres event store

The table `sequenced_events` is the list of its rows, and `seq_id` is its
primary key.  A transaction that fails leaves the table as it was.
-/

namespace ClobApi.PgStore

/-- `INSERT … ON CONFLICT (seq_id) DO NOTHING` -/
def insertEvent (table : List SequencedEvent) (event : SequencedEvent) :
    List SequencedEvent :=
  if table.any fun row => row.seqId == event.seqId then table
  else table ++ [event]

/-- The transaction of `append_events`, once it commits. -/
def appendEvents (table events : List SequencedEvent) : List SequencedEvent :=
  events.foldl insertEvent table

/-- `SELECT payload FROM sequenced_events ORDER BY seq_id ASC` -/
def loadAllEvents (table : List SequencedEvent) : List SequencedEvent :=
  table.insertionSort fun a b => a.seqId ≤ b.seqId

def Stores (table : List SequencedEvent) (n : Nat) : Prop :=
  ∃ row ∈ table, row.seqId = n

variable {table events : List SequencedEvent}

theorem insertEvent_of_stores {event : SequencedEvent}
    (h : Stores table event.seqId) : insertEvent table event = table := by
  obtain ⟨row, hrow, hseq⟩ := h
  exact if_pos (List.any_eq_true.mpr ⟨row, hrow, by simpa using hseq⟩)

theorem insertEvent_of_not_stores {event : SequencedEvent}
    (h : ¬ Stores table event.seqId) :
    insertEvent table event = table ++ [event] := by
  refine if_neg fun hany => h ?_
  obtain ⟨row, hrow, hseq⟩ := List.any_eq_true.mp hany
  exact ⟨row, hrow, by simpa using hseq⟩

theorem stores_insertEvent (event : SequencedEvent) (n : Nat) :
    Stores (insertEvent table event) n ↔ Stores table n ∨ event.seqId = n := by
  by_cases h : Stores table event.seqId
  · rw [insertEvent_of_stores h]
    refine ⟨.inl, ?_⟩
    rintro (hn | rfl)
    · exact hn
    · exact h
  · rw [insertEvent_of_not_stores h]
    simp [Stores, or_and_right, exists_or]

theorem stores_appendEvents (table events : List SequencedEvent) (n : Nat) :
    Stores (appendEvents table events) n ↔
      Stores table n ∨ ∃ event ∈ events, event.seqId = n := by
  induction events generalizing table with
  | nil => simp [appendEvents]
  | cons event events ih =>
      rw [appendEvents, List.foldl_cons, ← appendEvents, ih, stores_insertEvent]
      simp [or_assoc]

theorem appendEvents_append (table events events' : List SequencedEvent) :
    appendEvents table (events ++ events') =
      appendEvents (appendEvents table events) events' :=
  List.foldl_append

theorem appendEvents_of_stores
    (h : ∀ event ∈ events, Stores table event.seqId) :
    appendEvents table events = table := by
  induction events with
  | nil => rfl
  | cons event events ih =>
      rw [appendEvents, List.foldl_cons,
        insertEvent_of_stores (h event (by simp))]
      exact ih fun event' hmem => h event' (List.mem_cons_of_mem _ hmem)

theorem appendEvents_of_new
    (hnew : ∀ event ∈ events, ¬ Stores table event.seqId)
    (hevents : events.Pairwise fun a b => a.seqId < b.seqId) :
    appendEvents table events = table ++ events := by
  induction events generalizing table with
  | nil => exact (List.append_nil _).symm
  | cons event events ih =>
      obtain ⟨hfirst, hrest⟩ := List.pairwise_cons.mp hevents
      rw [appendEvents, List.foldl_cons,
        insertEvent_of_not_stores (hnew event (by simp)), ← appendEvents,
        ih (fun event' hmem => ?_) hrest, List.append_assoc]
      · rfl
      · rw [← insertEvent_of_not_stores (hnew event (by simp)),
          stores_insertEvent]
        rintro (hold | heq)
        · exact hnew event' (List.mem_cons_of_mem _ hmem) hold
        · exact Nat.ne_of_lt (hfirst event' hmem) heq

theorem loadAllEvents_of_sorted
    (h : table.Pairwise fun a b => a.seqId ≤ b.seqId) :
    loadAllEvents table = table :=
  h.insertionSort_eq

end ClobApi.PgStore
