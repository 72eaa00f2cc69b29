import ClobApi.Events
import ClobApi.Foundation.Shipping

/-!
# WebSocket envelopes

An event fans out to one envelope for each channel it concerns.
-/

namespace ClobApi

open Foundation

structure WsEnvelope where
  channel : String
  sequenceId : Nat
  eventType : String
  /-- the event, sent as JSON -/
  payload : Event
  timestampMs : UInt64
  deriving DecidableEq, Repr

namespace WsEnvelope

def fromSequenced (se : SequencedEvent) : List WsEnvelope :=
  let envelope := fun channel eventType : String =>
    (⟨channel, se.seqId, eventType, se.event, se.timestampMs⟩ : WsEnvelope)
  match se.event with
  | .orderAccepted order =>
      [envelope ("book.l3." ++ order.marketId.value) "order_accepted",
        envelope ("orders." ++ order.traderId) "order_accepted"]
  | .fill fill =>
      [envelope ("trades." ++ fill.marketId.value) "fill",
        envelope ("orders." ++ fill.takerTraderId) "fill"] ++
      if fill.makerTraderId ≠ fill.takerTraderId then
        [envelope ("orders." ++ fill.makerTraderId) "fill"]
      else []
  | .orderCancelled .. => [envelope "cancels" "order_cancelled"]
  | .orderRejected _ traderId _ =>
      [envelope ("orders." ++ traderId) "order_rejected"]
  | .marketPaused marketId _ =>
      [envelope ("market." ++ marketId.value) "market_paused"]
  | .marketResumed marketId _ =>
      [envelope ("market." ++ marketId.value) "market_resumed"]

theorem fromSequenced_ne_nil (se : SequencedEvent) : fromSequenced se ≠ [] := by
  unfold fromSequenced
  cases se.event <;> simp

theorem fromSequenced_sequenceId (se : SequencedEvent) :
    ∀ envelope ∈ fromSequenced se, envelope.sequenceId = se.seqId := by
  unfold fromSequenced
  cases se.event with
  | fill fill =>
      intro envelope hmem
      split at hmem <;> simp at hmem <;> grind
  | _ => simp

theorem channel_ne {kind kind' : String} {c c' : Char}
    (hkind : kind.toList.head? = some c) (hkind' : kind'.toList.head? = some c')
    (h : c ≠ c') (a b : String) : kind ++ a ≠ kind' ++ b := by
  intro heq
  have hhead := congrArg (fun channel => channel.toList.head?) heq
  simp only [String.toList_append, List.head?_append, hkind, hkind'] at hhead
  exact h (Option.some.inj hhead)

theorem fromSequenced_nodup (se : SequencedEvent) :
    (fromSequenced se).Nodup := by
  have hbook : ∀ a b, "book.l3." ++ a ≠ "orders." ++ b :=
    channel_ne rfl rfl (by decide)
  have htrades : ∀ a b, "trades." ++ a ≠ "orders." ++ b :=
    channel_ne rfl rfl (by decide)
  unfold fromSequenced
  cases se.event with
  | orderAccepted order => simp [hbook]
  | fill fill =>
      by_cases hmaker : fill.makerTraderId = fill.takerTraderId
      · simp [hmaker, htrades]
      · simp [hmaker, htrades, Ne.symm hmaker]
  | _ => simp

end WsEnvelope

/-- How the log becomes the live feed. -/
def envelopes : Rendering SequencedEvent WsEnvelope where
  entryNumber := SequencedEvent.seqId
  render := WsEnvelope.fromSequenced
  number := WsEnvelope.sequenceId
  render_ne_nil := WsEnvelope.fromSequenced_ne_nil
  render_nodup := WsEnvelope.fromSequenced_nodup
  render_number := WsEnvelope.fromSequenced_sequenceId

end ClobApi
