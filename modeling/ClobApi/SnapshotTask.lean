import ClobApi.Engine.Runs
import ClobApi.Formats
import ClobApi.SnapshotFiles

/-!
# The snapshot task

Every minute `main` copies the log, the markets and the checksum under the
engine lock and then writes them to a file, while the engine goes on.
-/

namespace ClobApi

open Foundation

/-- What the task takes along when it releases the engine lock. -/
structure SnapshotCopy where
  events : List SequencedEvent
  markets : List MarketConfig
  checksum : Bytes32

def SnapshotCopy.ofEngine (crypto : Crypto) (e : Engine) : SnapshotCopy :=
  ⟨e.log, e.listMarkets, e.state.checksum crypto⟩

/-- The engine, the task and the directory `./snapshots`. -/
structure SnapshotTask where
  engine : Engine
  copy : Option SnapshotCopy
  files : HashMap FileName Json

inductive SnapshotAction where
  | engine (op : Op)
  /-- the interval is over and the engine lock free -/
  | tick
  /-- `create_snapshot`, when the wall clock shows `nowMs` -/
  | write (nowMs : UInt64)
  /-- `create_snapshot` cannot open the file -/
  | fail

namespace SnapshotTask

def start (e : Engine) : SnapshotTask := ⟨e, none, .empty⟩

def step (crypto : Crypto) (s : SnapshotTask) (action : SnapshotAction) :
    Option SnapshotTask :=
  match action, s.copy with
  | .engine op, _ => some { s with engine := (s.engine.apply crypto op).1 }
  | .tick, none =>
      if s.engine.log.isEmpty then some s
      else some { s with copy := some (.ofEngine crypto s.engine) }
  | .write nowMs, some copy =>
      let snap := createSnapshot nowMs copy.events copy.markets copy.checksum
      let path := snapshotPath (.ofNat snap.snapshotSeq)
      some
        { s with
          copy := none
          files := s.files.insert path (Snapshot.codec.encode snap) }
  | .fail, some _ => some { s with copy := none }
  | _, _ => none

def Admits (s : SnapshotTask) : SnapshotAction → Prop
  | .engine op => s.engine.Admits op
  | _ => True

def Step (crypto : Crypto) (s : SnapshotTask) (action : SnapshotAction)
    (s' : SnapshotTask) : Prop :=
  s.Admits action ∧ s.step crypto action = some s'

end SnapshotTask

/-! ## Loading a file -/

inductive SnapshotFileError where
  | json
  | snapshot (error : SnapshotError)

/-- `load_snapshot` on the contents of a file. -/
def loadSnapshotFile (crypto : Crypto) (shuffle : Shuffle Order) (json : Json) :
    Except SnapshotFileError (ReplayResult × List MarketConfig × Nat) :=
  match Snapshot.codec.decode json with
  | none => .error .json
  | some snap =>
      match loadSnapshot crypto shuffle snap with
      | .error error => .error (.snapshot error)
      | .ok loaded => .ok loaded

end ClobApi
