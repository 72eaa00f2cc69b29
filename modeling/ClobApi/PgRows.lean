import ClobApi.Formats
import ClobApi.Pg

/-!
# The rows of the event store

The table as Postgres holds it: signed numbers, a type tag and the event as
JSON.  While no event number reaches the sign bit it is the list of events that
`PgStore` takes it for.
-/

namespace ClobApi

open Foundation

/-- `event_type_tag` -/
def Event.typeTag : Event → String
  | .orderAccepted .. => "order_accepted"
  | .orderRejected .. => "order_rejected"
  | .fill .. => "fill"
  | .orderCancelled .. => "order_cancelled"
  | .marketPaused .. => "market_paused"
  | .marketResumed .. => "market_resumed"

structure Row where
  seqId : Int64
  timestampMs : Int64
  eventType : String
  payload : Json

/-- The values that `append_events` binds. -/
def Row.ofEvent (event : SequencedEvent) : Row where
  seqId := (UInt64.ofNat event.seqId).toInt64
  timestampMs := event.timestampMs.toInt64
  eventType := event.event.typeTag
  payload := SequencedEvent.codec.encode event

namespace PgRows

/-- `INSERT … ON CONFLICT (seq_id) DO NOTHING` -/
def insertEvent (table : List Row) (event : SequencedEvent) : List Row :=
  let row := Row.ofEvent event
  if table.any fun other => other.seqId == row.seqId then table
  else table ++ [row]

/-- The transaction of `append_events`, once it commits. -/
def appendEvents (table : List Row) (events : List SequencedEvent) : List Row :=
  events.foldl insertEvent table

/-- The answer is `none` if a payload is not that of an event. -/
def loadAllEvents (table : List Row) : Option (List SequencedEvent) :=
  let rows := table.insertionSort fun a b => a.seqId ≤ b.seqId
  (rows.map Row.payload).mapM SequencedEvent.codec.decode

/-! ## Event numbers as signed numbers -/

theorem toInt_seqId {event : SequencedEvent} (h : event.seqId < 2 ^ 63) :
    (Row.ofEvent event).seqId.toInt = event.seqId := by
  have hbits : (UInt64.ofNat event.seqId).toBitVec.toNat = event.seqId :=
    UInt64.toNat_ofNat_of_lt (h.trans (by decide))
  change (UInt64.ofNat event.seqId).toInt64.toBitVec.toInt = event.seqId
  rw [UInt64.toBitVec_toInt64, BitVec.toInt_eq_toNat_of_lt (by omega), hbits]

theorem seqId_le_iff {a b : SequencedEvent} (ha : a.seqId < 2 ^ 63)
    (hb : b.seqId < 2 ^ 63) :
    (Row.ofEvent a).seqId ≤ (Row.ofEvent b).seqId ↔ a.seqId ≤ b.seqId := by
  rw [Int64.le_iff_toInt_le, toInt_seqId ha, toInt_seqId hb, Int.ofNat_le]

theorem seqId_inj {a b : SequencedEvent} (ha : a.seqId < 2 ^ 63)
    (hb : b.seqId < 2 ^ 63) :
    (Row.ofEvent a).seqId = (Row.ofEvent b).seqId ↔ a.seqId = b.seqId := by
  rw [← Int64.toInt_inj, toInt_seqId ha, toInt_seqId hb, Int.ofNat_inj]

/-! ## The table as a list of events -/

structure Fits (event : SequencedEvent) : Prop where
  number : event.seqId < 2 ^ 63
  payload : SequencedEvent.codec.Fits event

variable {table events : List SequencedEvent}

theorem insertEvent_map {event : SequencedEvent}
    (htable : ∀ row ∈ table, row.seqId < 2 ^ 63)
    (hevent : event.seqId < 2 ^ 63) :
    insertEvent (table.map .ofEvent) event =
      (PgStore.insertEvent table event).map .ofEvent := by
  have hconflict : ((table.map Row.ofEvent).any fun other =>
      other.seqId == (Row.ofEvent event).seqId) =
        table.any fun row => row.seqId == event.seqId := by
    rw [List.any_map, Bool.eq_iff_iff, List.any_eq_true, List.any_eq_true]
    refine exists_congr fun row => and_congr_right fun hrow => ?_
    rw [Function.comp_apply, beq_iff_eq, beq_iff_eq,
      seqId_inj (htable row hrow) hevent]
  unfold insertEvent PgStore.insertEvent
  dsimp only
  rw [hconflict]
  split
  · rfl
  · rw [List.map_append, List.map_singleton]

theorem appendEvents_map (htable : ∀ row ∈ table, row.seqId < 2 ^ 63)
    (hevents : ∀ event ∈ events, event.seqId < 2 ^ 63) :
    appendEvents (table.map .ofEvent) events =
      (PgStore.appendEvents table events).map .ofEvent := by
  induction events generalizing table with
  | nil => rfl
  | cons event events ih =>
      obtain ⟨hevent, hrest⟩ := List.forall_mem_cons.mp hevents
      rw [appendEvents, List.foldl_cons, insertEvent_map htable hevent,
        PgStore.appendEvents, List.foldl_cons]
      refine ih (fun row hrow => ?_) hrest
      unfold PgStore.insertEvent at hrow
      split at hrow
      · exact htable row hrow
      · rcases List.mem_append.mp hrow with hold | hnew
        · exact htable row hold
        · rw [List.mem_singleton.mp hnew]
          exact hevent

theorem loadAllEvents_map (h : ∀ event ∈ table, Fits event) :
    loadAllEvents (table.map .ofEvent) =
      some (PgStore.loadAllEvents table) := by
  have hsorted : (table.map Row.ofEvent).insertionSort
      (fun a b => a.seqId ≤ b.seqId) =
        (PgStore.loadAllEvents table).map .ofEvent :=
    (List.map_insertionSort (fun a b : SequencedEvent => a.seqId ≤ b.seqId)
      (fun a b : Row => a.seqId ≤ b.seqId) Row.ofEvent table fun a ha b hb =>
        (seqId_le_iff (h a ha).number (h b hb).number).symm).symm
  have hpayload : Row.payload ∘ Row.ofEvent = SequencedEvent.codec.encode :=
    rfl
  unfold loadAllEvents
  dsimp only
  rw [hsorted, List.map_map, hpayload]
  refine Codec.mapM_decode _ fun event hevent => (h event ?_).payload
  exact (List.mem_insertionSort _).mp hevent

end PgRows

end ClobApi
