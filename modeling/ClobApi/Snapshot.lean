import ClobApi.Domain.Market
import ClobApi.Replay.Replay

/-!
# Snapshots

A snapshot holds the whole log, the markets and the checksum of the state
store.  Writing it as JSON to a file and reading it back is taken to return the
same snapshot.
-/

namespace ClobApi

open Foundation

def snapshotSchemaVersion : UInt16 := 1

structure Snapshot where
  schemaVersion : UInt16
  snapshotSeq : Nat
  stateChecksum : String
  createdAtMs : UInt64
  events : List SequencedEvent
  markets : List MarketConfig
  deriving DecidableEq, Repr

inductive SnapshotError where
  | unsupportedVersion (found : UInt16)
  | checksumMismatch (stored computed : String)
  | replayFailed (error : ReplayError)
  deriving DecidableEq, Repr

/-- `nowMs` is the wall clock. -/
def createSnapshot (nowMs : UInt64) (events : List SequencedEvent)
    (markets : List MarketConfig) (checksum : Bytes32) : Snapshot where
  schemaVersion := snapshotSchemaVersion
  snapshotSeq := (events.getLast?.map SequencedEvent.seqId).getD 0
  stateChecksum := hexEncode checksum.toList
  createdAtMs := nowMs
  events := events
  markets := markets

@[simp] theorem createSnapshot_events (nowMs : UInt64)
    (events : List SequencedEvent) (markets : List MarketConfig)
    (checksum : Bytes32) :
    (createSnapshot nowMs events markets checksum).events = events := rfl

def loadSnapshot (crypto : Crypto) (shuffle : Shuffle Order) (snap : Snapshot) :
    Except SnapshotError (ReplayResult × List MarketConfig × Nat) :=
  if snap.schemaVersion ≠ snapshotSchemaVersion then
    .error (.unsupportedVersion snap.schemaVersion)
  else
    match replay shuffle snap.events with
    | .error error => .error (.replayFailed error)
    | .ok result =>
        let computed := hexEncode (result.state.checksum crypto).toList
        if computed ≠ snap.stateChecksum then
          .error (.checksumMismatch snap.stateChecksum computed)
        else .ok (result, snap.markets, snap.snapshotSeq)

/--
A snapshot loads when its checksum is that of a store with the replayed entries.
-/
theorem loadSnapshot_createSnapshot (crypto : Crypto) {shuffle : Shuffle Order}
    {events : List SequencedEvent} {result : ReplayResult} {state : StateStore}
    (hreplay : replay shuffle events = .ok result)
    (hstate : result.state.Agrees state) (nowMs : UInt64)
    (markets : List MarketConfig) :
    loadSnapshot crypto shuffle
        (createSnapshot nowMs events markets (state.checksum crypto)) =
      .ok (result, markets,
        (events.getLast?.map SequencedEvent.seqId).getD 0) := by
  simp [loadSnapshot, createSnapshot, hreplay, hstate.checksum crypto]

end ClobApi
