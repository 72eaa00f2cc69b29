import ClobApi.Events
import ClobApi.Foundation.Collections

/-!
# The sequencer

The sequencer numbers events, keeps the log and remembers which
(trader, client order id) pairs were accepted.  Each append reads the wall
clock once; `wall n` is the reading taken when event `n` is appended.
-/

namespace ClobApi

open Foundation

structure IdempotencyKey where
  traderId : String
  clientOrderId : String
  deriving DecidableEq, Repr

structure IdempotencyRecord where
  originalSeqId : Nat
  orderId : OrderId
  orderHash : OrderHash
  acceptedAtMs : UInt64
  deriving DecidableEq, Repr

structure Sequencer where
  nextSeqId : Nat
  log : List SequencedEvent
  idempotency : HashMap IdempotencyKey IdempotencyRecord

namespace Sequencer

def new : Sequencer := ⟨1, [], .empty⟩

/-- What `resume` does with one event of the log. -/
def rememberAccepted (idempotency : HashMap IdempotencyKey IdempotencyRecord)
    (ev : SequencedEvent) : HashMap IdempotencyKey IdempotencyRecord :=
  match ev.event with
  | .orderAccepted order =>
      idempotency.insert ⟨order.traderId, order.clientOrderId⟩
        ⟨ev.seqId, order.orderId, order.orderHash, ev.timestampMs⟩
  | _ => idempotency

def resume (resumeFromSeqId : Nat) (log : List SequencedEvent) : Sequencer :=
  ⟨resumeFromSeqId, log, log.foldl rememberAccepted .empty⟩

def peekNextSeqId (s : Sequencer) : Nat := s.nextSeqId

def appendEvent (wall : Nat → UInt64) (s : Sequencer) (event : Event) :
    Sequencer :=
  { s with
    nextSeqId := s.nextSeqId + 1
    log := s.log ++ [⟨s.nextSeqId, wall s.nextSeqId, event⟩] }

def idempotencyCheck (s : Sequencer) (traderId clientOrderId : String) :
    Option IdempotencyRecord :=
  s.idempotency.get? ⟨traderId, clientOrderId⟩

def registerAccepted (s : Sequencer) (traderId clientOrderId : String)
    (seqId : Nat) (orderId : OrderId) (orderHash : OrderHash)
    (acceptedAtMs : UInt64) : Sequencer :=
  { s with
    idempotency := s.idempotency.insert ⟨traderId, clientOrderId⟩
      ⟨seqId, orderId, orderHash, acceptedAtMs⟩ }

end Sequencer

end ClobApi
