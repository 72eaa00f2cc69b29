import ClobApi.Domain.Order
import ClobApi.Foundation.Collections

/-!
# The state store

Filled amounts and cancellations by order hash, and the highest accepted nonce
of each trader.
-/

namespace ClobApi

open Foundation

structure StateStore where
  filledAmounts : HashMap Bytes32 UInt64
  cancelled : HashMap Bytes32 Bool
  nonces : HashMap String UInt64

structure NonceError where
  lastNonce : UInt64
  submitted : UInt64
  deriving DecidableEq, Repr

namespace StateStore

def new : StateStore := ⟨.empty, .empty, .empty⟩

def filledAmount (state : StateStore) (orderHash : Bytes32) : UInt64 :=
  (state.filledAmounts.get? orderHash).getD 0

/-- `*filled_amounts.entry(hash).or_insert(0) += qty` -/
def addFilled (state : StateStore) (orderHash : Bytes32) (qty : UInt64) :
    StateStore :=
  { state with
    filledAmounts := state.filledAmounts.insert orderHash
      (state.filledAmount orderHash + qty) }

def applyFill (state : StateStore) (takerHash makerHash : Bytes32)
    (qty : UInt64) : StateStore :=
  (state.addFilled takerHash qty).addFilled makerHash qty

def cancelOrder (state : StateStore) (orderHash : Bytes32) : StateStore :=
  { state with cancelled := state.cancelled.insert orderHash true }

def isCancelled (state : StateStore) (orderHash : Bytes32) : Bool :=
  (state.cancelled.get? orderHash).getD false

def lastNonce (state : StateStore) (traderId : String) : UInt64 :=
  (state.nonces.get? traderId).getD 0

def checkAndUpdateNonce (state : StateStore) (traderId : String)
    (nonce : UInt64) : Except NonceError StateStore :=
  let last := state.lastNonce traderId
  if nonce ≤ last then .error ⟨last, nonce⟩
  else .ok { state with nonces := state.nonces.insert traderId nonce }

/-! ## Checksum -/

def sortByHash {ν : Type} (m : HashMap Bytes32 ν) : List (Bytes32 × ν) :=
  m.bindings.insertionSort fun a b => a.1.toList ≤ b.1.toList

def sortByTrader (m : HashMap String UInt64) : List (String × UInt64) :=
  m.bindings.insertionSort fun a b => a.1 ≤ b.1

/-- The bytes `checksum` feeds to SHA-256. -/
def checksumBytes (state : StateStore) : List UInt8 :=
  ((sortByHash state.filledAmounts).flatMap fun (hash, qty) =>
      hash.toList ++ u64BeBytes qty) ++
    ((sortByHash state.cancelled).flatMap fun (hash, flag) =>
      hash.toList ++ [flag.toUInt8]) ++
    ((sortByTrader state.nonces).flatMap fun (traderId, nonce) =>
      lengthPrefixed traderId ++ u64BeBytes nonce)

def checksum (crypto : Crypto) (state : StateStore) : Bytes32 :=
  crypto.sha256 state.checksumBytes

/-! ## Stores with the same entries -/

/--
The two stores hold the same entries, in whatever order they iterate over them.
-/
structure Agrees (state state' : StateStore) : Prop where
  filledAmounts : ∀ hash,
    state.filledAmounts.get? hash = state'.filledAmounts.get? hash
  cancelled : ∀ hash, state.cancelled.get? hash = state'.cancelled.get? hash
  nonces : ∀ traderId, state.nonces.get? traderId = state'.nonces.get? traderId

theorem Agrees.refl (state : StateStore) : state.Agrees state :=
  ⟨fun _ => rfl, fun _ => rfl, fun _ => rfl⟩

section Agrees

variable {state state' : StateStore}

theorem Agrees.symm (h : state.Agrees state') : state'.Agrees state :=
  ⟨fun hash => (h.filledAmounts hash).symm, fun hash => (h.cancelled hash).symm,
    fun traderId => (h.nonces traderId).symm⟩

theorem Agrees.trans {state'' : StateStore} (h : state.Agrees state')
    (h' : state'.Agrees state'') : state.Agrees state'' :=
  ⟨fun hash => (h.filledAmounts hash).trans (h'.filledAmounts hash),
    fun hash => (h.cancelled hash).trans (h'.cancelled hash),
    fun traderId => (h.nonces traderId).trans (h'.nonces traderId)⟩

theorem Agrees.filledAmount (h : state.Agrees state') (hash : Bytes32) :
    state.filledAmount hash = state'.filledAmount hash := by
  unfold StateStore.filledAmount
  rw [h.filledAmounts]

theorem Agrees.lastNonce (h : state.Agrees state') (traderId : String) :
    state.lastNonce traderId = state'.lastNonce traderId := by
  unfold StateStore.lastNonce
  rw [h.nonces]

theorem Agrees.addFilled (h : state.Agrees state') (hash : Bytes32)
    (qty : UInt64) :
    (state.addFilled hash qty).Agrees (state'.addFilled hash qty) :=
  { h with
    filledAmounts := fun hash' => by
      simp only [StateStore.addFilled, HashMap.get?_insert, h.filledAmount,
        h.filledAmounts] }

theorem Agrees.applyFill (h : state.Agrees state')
    (takerHash makerHash : Bytes32) (qty : UInt64) :
    (state.applyFill takerHash makerHash qty).Agrees
      (state'.applyFill takerHash makerHash qty) :=
  (h.addFilled takerHash qty).addFilled makerHash qty

theorem Agrees.cancelOrder (h : state.Agrees state') (hash : Bytes32) :
    (state.cancelOrder hash).Agrees (state'.cancelOrder hash) :=
  { h with
    cancelled := fun hash' => by
      simp only [StateStore.cancelOrder, HashMap.get?_insert, h.cancelled] }

theorem Agrees.insertNonce (h : state.Agrees state') (traderId : String)
    (nonce : UInt64) :
    StateStore.Agrees
      { state with nonces := state.nonces.insert traderId nonce }
      { state' with nonces := state'.nonces.insert traderId nonce } :=
  { h with
    nonces := fun traderId' => by simp only [HashMap.get?_insert, h.nonces] }

theorem sortByHash_congr {ν : Type} {m m' : HashMap Bytes32 ν}
    (h : ∀ hash, m.get? hash = m'.get? hash) :
    sortByHash m = sortByHash m' := by
  refine HashMap.sort_bindings_congr (fun a b : Bytes32 => a.toList ≤ b.toList)
    (fun a b => List.le_total _ _) (fun a b c => List.le_trans)
      (fun a b hle hle' => ?_) h
  exact Vector.toList_inj.mp (List.le_antisymm hle hle')

theorem sortByTrader_congr {m m' : HashMap String UInt64}
    (h : ∀ traderId, m.get? traderId = m'.get? traderId) :
    sortByTrader m = sortByTrader m' :=
  HashMap.sort_bindings_congr (fun a b : String => a ≤ b) String.le_total
    (fun _ _ _ => String.le_trans) (fun _ _ => String.le_antisymm) h

@[simp] theorem length_sortByHash {ν : Type} (m : HashMap Bytes32 ν) :
    (sortByHash m).length = m.bindings.length :=
  List.length_insertionSort _ _

theorem mem_sortByTrader {m : HashMap String UInt64}
    {entry : String × UInt64} :
    entry ∈ sortByTrader m ↔ m.get? entry.1 = some entry.2 :=
  (List.mem_insertionSort _).trans (m.mem_bindings _ _)

theorem agrees_iff_sorted : state.Agrees state' ↔
    sortByHash state.filledAmounts = sortByHash state'.filledAmounts ∧
      sortByHash state.cancelled = sortByHash state'.cancelled ∧
      sortByTrader state.nonces = sortByTrader state'.nonces := by
  constructor
  · intro h
    exact ⟨sortByHash_congr h.filledAmounts, sortByHash_congr h.cancelled,
      sortByTrader_congr h.nonces⟩
  · rintro ⟨hfilled, hcancelled, hnonces⟩
    exact ⟨HashMap.get?_of_sort_bindings hfilled,
      HashMap.get?_of_sort_bindings hcancelled,
      HashMap.get?_of_sort_bindings hnonces⟩

theorem Agrees.checksum (crypto : Crypto) (h : state.Agrees state') :
    state.checksum crypto = state'.checksum crypto := by
  obtain ⟨hfilled, hcancelled, hnonces⟩ := agrees_iff_sorted.mp h
  unfold StateStore.checksum checksumBytes
  rw [hfilled, hcancelled, hnonces]

end Agrees

end StateStore

end ClobApi
