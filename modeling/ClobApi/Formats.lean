import ClobApi.Foundation.Json
import ClobApi.Snapshot

/-!
# JSON formats

What the `Serialize` and `Deserialize` derives of the domain types write and
read.  Orders, events and snapshots leave the process as JSON only: in request
bodies, in the table `sequenced_events` and in snapshot files.
-/

namespace ClobApi

open Foundation

/-! ## Hexadecimal digits -/

def hexValue (c : Char) : Option UInt8 :=
  if '0' ≤ c ∧ c ≤ '9' then some (UInt8.ofNat (c.toNat - 48))
  else if 'a' ≤ c ∧ c ≤ 'f' then some (UInt8.ofNat (c.toNat - 87))
  else if 'A' ≤ c ∧ c ≤ 'F' then some (UInt8.ofNat (c.toNat - 55))
  else none

def hexPairs : List Char → Option (List UInt8)
  | [] => some []
  | [_] => none
  | high :: low :: rest => do
      let h ← hexValue high
      let l ← hexValue low
      let bytes ← hexPairs rest
      pure ((h * 16 + l) :: bytes)

/-- `hex::decode`: two digits a byte, in either case. -/
def hexDecode (s : String) : Option (List UInt8) := hexPairs s.toList

theorem hexValue_hexDigit {n : UInt8} (h : n.toNat < 16) :
    hexValue (hexDigit n) = some n := by
  have hall : ∀ k < 16, hexValue (hexDigit (UInt8.ofNat k)) =
      some (UInt8.ofNat k) := by
    decide +kernel
  have hn := hall n.toNat h
  rwa [UInt8.ofNat_toNat] at hn

theorem hexDecode_hexEncode (bytes : List UInt8) :
    hexDecode (hexEncode bytes) = some bytes := by
  unfold hexDecode hexEncode
  rw [String.toList_ofList]
  induction bytes with
  | nil => rfl
  | cons b bytes ih =>
      have hb := b.toNat_lt
      have hhigh : (b / 16).toNat < 16 := by
        rw [UInt8.toNat_div]
        change b.toNat / 16 < 16
        omega
      have hlow : (b % 16).toNat < 16 := by
        rw [UInt8.toNat_mod]
        exact Nat.mod_lt _ (by decide)
      have hjoin : b / 16 * 16 + b % 16 = b := by
        rw [← UInt8.toNat_inj]
        simp only [UInt8.toNat_add, UInt8.toNat_mul, UInt8.toNat_div,
          UInt8.toNat_mod, UInt8.reduceToNat]
        omega
      simp only [List.flatMap_cons, List.cons_append, List.nil_append, hexPairs,
        hexValue_hexDigit hhigh, hexValue_hexDigit hlow, ih]
      exact congrArg (fun b => some (b :: bytes)) hjoin

/-- `serde_hex_32` and `serde_hex_64`: exactly `n` bytes. -/
def hexCodec (n : Nat) : Codec (Vector UInt8 n) :=
  Codec.string.filterMap
    (fun s => (hexDecode s).bind fun bytes =>
      if h : bytes.length = n then some ⟨⟨bytes⟩, h⟩ else none)
    (fun bytes => hexEncode bytes.toList) (fun _ => True) (fun _ _ => trivial)
    fun bytes _ => by
      rw [hexDecode_hexEncode, Option.bind_some, dif_pos bytes.length_toList]
      rfl

@[simp] theorem fits_hexCodec {n : Nat} (bytes : Vector UInt8 n) :
    (hexCodec n).Fits bytes :=
  trivial

/-! ## Domain types -/

def MarketId.codec : Codec MarketId :=
  Codec.string.map MarketId.mk MarketId.value fun _ => rfl

def OrderId.codec : Codec OrderId :=
  Codec.string.map OrderId.mk OrderId.value fun _ => rfl

/-- The derive writes the bytes as numbers. -/
def OrderHash.codec : Codec OrderHash :=
  (Codec.u8.vector 32).map OrderHash.mk OrderHash.bytes fun _ => rfl

def Side.name : Side → String
  | .buy => "buy"
  | .sell => "sell"

def Side.codec : Codec Side :=
  .units name [.buy, .sell] fun side => by cases side <;> rfl

def TimeInForce.name : TimeInForce → String
  | .gtc => "GTC"

def TimeInForce.codec : Codec TimeInForce :=
  .units name [.gtc] fun timeInForce => by cases timeInForce; rfl

def OrderStatus.name : OrderStatus → String
  | .open => "open"
  | .partiallyFilled => "partially_filled"
  | .filled => "filled"
  | .cancelled => "cancelled"
  | .cancelledStp => "cancelled_stp"

def OrderStatus.codec : Codec OrderStatus :=
  .units name [.open, .partiallyFilled, .filled, .cancelled, .cancelledStp]
    fun status => by cases status <;> rfl

def MarketStatus.name : MarketStatus → String
  | .active => "active"
  | .paused => "paused"
  | .settled => "settled"

def MarketStatus.codec : Codec MarketStatus :=
  .units name [.active, .paused, .settled] fun status => by
    cases status <;> rfl

def CancelReason.name : CancelReason → String
  | .traderRequest => "trader_request"
  | .expired => "expired"
  | .selfTradePrevention => "self_trade_prevention"
  | .adminForce => "admin_force"

def CancelReason.codec : Codec CancelReason :=
  .units name [.traderRequest, .expired, .selfTradePrevention, .adminForce]
    fun reason => by cases reason <;> rfl

def SignedOrder.fields : Fields SignedOrder :=
  (Fields.cons "schema_version" .u16 <|
    .cons "client_order_id" .string <|
    .cons "market_id" MarketId.codec <|
    .cons "trader_id" .string <|
    .cons "side" Side.codec <|
    .cons "price_ticks" .u64 <|
    .cons "size_lots" .u64 <|
    .cons "time_in_force" TimeInForce.codec <|
    .cons "nonce" .u64 <|
    .cons "expiry_ts_ms" .u64 <|
    .cons "created_at_ms" .u64 <|
    .cons "salt" .u64 <|
    .cons "trader_pubkey" (hexCodec 32) <|
    .cons "signature" (hexCodec 64) .nil).map
    (fun (schemaVersion, clientOrderId, marketId, traderId, side, priceTicks,
        sizeLots, timeInForce, nonce, expiryTsMs, createdAtMs, salt,
        traderPubkey, signature, ()) =>
      ⟨schemaVersion, clientOrderId, marketId, traderId, side, priceTicks,
        sizeLots, timeInForce, nonce, expiryTsMs, createdAtMs, salt,
        traderPubkey, signature⟩)
    (fun signed => (signed.schemaVersion, signed.clientOrderId, signed.marketId,
      signed.traderId, signed.side, signed.priceTicks, signed.sizeLots,
      signed.timeInForce, signed.nonce, signed.expiryTsMs, signed.createdAtMs,
      signed.salt, signed.traderPubkey, signed.signature, ()))
    fun _ => rfl

def SignedOrder.codec : Codec SignedOrder := fields.codec (by decide)

def Order.fields : Fields Order :=
  (Fields.cons "order_id" OrderId.codec <|
    .cons "client_order_id" .string <|
    .cons "order_hash" OrderHash.codec <|
    .cons "market_id" MarketId.codec <|
    .cons "trader_id" .string <|
    .cons "trader_pubkey" (hexCodec 32) <|
    .cons "side" Side.codec <|
    .cons "price_ticks" .u64 <|
    .cons "orig_size_lots" .u64 <|
    .cons "filled_size_lots" .u64 <|
    .cons "time_in_force" TimeInForce.codec <|
    .cons "nonce" .u64 <|
    .cons "expiry_ts_ms" .u64 <|
    .cons "status" OrderStatus.codec <|
    .cons "created_sequence" .counter <|
    .cons "last_update_sequence" .counter <|
    .cons "accepted_at_ms" .u64 .nil).map
    (fun (orderId, clientOrderId, orderHash, marketId, traderId, traderPubkey,
        side, priceTicks, origSizeLots, filledSizeLots, timeInForce, nonce,
        expiryTsMs, status, createdSequence, lastUpdateSequence, acceptedAtMs,
        ()) =>
      ⟨orderId, clientOrderId, orderHash, marketId, traderId, traderPubkey,
        side, priceTicks, origSizeLots, filledSizeLots, timeInForce, nonce,
        expiryTsMs, status, createdSequence, lastUpdateSequence,
        acceptedAtMs⟩)
    (fun order => (order.orderId, order.clientOrderId, order.orderHash,
      order.marketId, order.traderId, order.traderPubkey, order.side,
      order.priceTicks, order.origSizeLots, order.filledSizeLots,
      order.timeInForce, order.nonce, order.expiryTsMs, order.status,
      order.createdSequence, order.lastUpdateSequence, order.acceptedAtMs, ()))
    fun _ => rfl

def Order.codec : Codec Order := fields.codec (by decide)

theorem Order.fits_iff (order : Order) : codec.Fits order ↔
    order.createdSequence < 2 ^ 64 ∧ order.lastUpdateSequence < 2 ^ 64 := by
  simp [codec, fields, OrderId.codec, OrderHash.codec, MarketId.codec,
    Side.codec, TimeInForce.codec, OrderStatus.codec]

def Fill.fields : Fields Fill :=
  (Fields.cons "market_id" MarketId.codec <|
    .cons "taker_order_id" OrderId.codec <|
    .cons "taker_order_hash" OrderHash.codec <|
    .cons "taker_trader_id" .string <|
    .cons "maker_order_id" OrderId.codec <|
    .cons "maker_order_hash" OrderHash.codec <|
    .cons "maker_trader_id" .string <|
    .cons "price_ticks" .u64 <|
    .cons "size_lots" .u64 <|
    .cons "sequence_id" .counter <|
    .cons "executed_at_ms" .u64 .nil).map
    (fun (marketId, takerOrderId, takerOrderHash, takerTraderId, makerOrderId,
        makerOrderHash, makerTraderId, priceTicks, sizeLots, sequenceId,
        executedAtMs, ()) =>
      ⟨marketId, takerOrderId, takerOrderHash, takerTraderId, makerOrderId,
        makerOrderHash, makerTraderId, priceTicks, sizeLots, sequenceId,
        executedAtMs⟩)
    (fun fill => (fill.marketId, fill.takerOrderId, fill.takerOrderHash,
      fill.takerTraderId, fill.makerOrderId, fill.makerOrderHash,
      fill.makerTraderId, fill.priceTicks, fill.sizeLots, fill.sequenceId,
      fill.executedAtMs, ()))
    fun _ => rfl

theorem Fill.fits_iff (fill : Fill) :
    fields.Fits fill ↔ fill.sequenceId < 2 ^ 64 := by
  simp [fields, OrderId.codec, OrderHash.codec, MarketId.codec]

/-! ## The event log -/

/-- A fill has no field of its own: its entries stand beside the tag. -/
def Event.variants : List (Variant Event) :=
  [(Fields.cons "order" Order.codec .nil).variant "order_accepted"
      (fun (order, ()) => .orderAccepted order)
      (fun
        | .orderAccepted order => some (order, ())
        | _ => none)
      (by rintro (_ | _ | _ | _ | _ | _) _ ⟨⟩; rfl),
    (Fields.cons "client_order_id" .string <|
      .cons "trader_id" .string <|
      .cons "reason" .string .nil).variant "order_rejected"
      (fun (clientOrderId, traderId, reason, ()) =>
        .orderRejected clientOrderId traderId reason)
      (fun
        | .orderRejected clientOrderId traderId reason =>
            some (clientOrderId, traderId, reason, ())
        | _ => none)
      (by rintro (_ | _ | _ | _ | _ | _) _ ⟨⟩; rfl),
    Fill.fields.variant "fill" .fill
      (fun
        | .fill trade => some trade
        | _ => none)
      (by rintro (_ | _ | _ | _ | _ | _) _ ⟨⟩; rfl),
    (Fields.cons "order_id" OrderId.codec <|
      .cons "order_hash" OrderHash.codec <|
      .cons "reason" CancelReason.codec .nil).variant "order_cancelled"
      (fun (orderId, orderHash, reason, ()) =>
        .orderCancelled orderId orderHash reason)
      (fun
        | .orderCancelled orderId orderHash reason =>
            some (orderId, orderHash, reason, ())
        | _ => none)
      (by rintro (_ | _ | _ | _ | _ | _) _ ⟨⟩; rfl),
    (Fields.cons "market_id" MarketId.codec <|
      .cons "triggered_by" .string .nil).variant "market_paused"
      (fun (marketId, triggeredBy, ()) => .marketPaused marketId triggeredBy)
      (fun
        | .marketPaused marketId triggeredBy => some (marketId, triggeredBy, ())
        | _ => none)
      (by rintro (_ | _ | _ | _ | _ | _) _ ⟨⟩; rfl),
    (Fields.cons "market_id" MarketId.codec <|
      .cons "triggered_by" .string .nil).variant "market_resumed"
      (fun (marketId, triggeredBy, ()) => .marketResumed marketId triggeredBy)
      (fun
        | .marketResumed marketId triggeredBy =>
            some (marketId, triggeredBy, ())
        | _ => none)
      (by rintro (_ | _ | _ | _ | _ | _) _ ⟨⟩; rfl)]

def Event.tagged : Tagged Event where
  tag := "type"
  variants := variants
  names_nodup := by decide
  fields_nodup := by
    have hall : ∀ names ∈ variants.map Variant.names,
        ("type" :: names).Nodup := by decide
    exact fun v hv => hall _ (List.mem_map_of_mem hv)
  total event := by
    cases event <;> simp [variants, Fields.variant]

def Event.codec : Codec Event := tagged.codec

def SequencedEvent.fields : Fields SequencedEvent :=
  (Fields.cons "seq_id" .counter <|
    .cons "timestamp_ms" .u64 <|
    .cons "event" Event.codec .nil).map
    (fun (seqId, timestampMs, event, ()) => ⟨seqId, timestampMs, event⟩)
    (fun se => (se.seqId, se.timestampMs, se.event, ())) fun _ => rfl

def SequencedEvent.codec : Codec SequencedEvent := fields.codec (by decide)

/-- The numbers in an event that count events. -/
def Event.counters : Event → List Nat
  | .orderAccepted order => [order.createdSequence, order.lastUpdateSequence]
  | .fill trade => [trade.sequenceId]
  | _ => []

theorem Event.fits {event : Event} (h : ∀ n ∈ event.counters, n < 2 ^ 64) :
    codec.Fits event := by
  rw [codec, Tagged.fits_codec]
  cases event <;>
    simp_all [tagged, variants, counters, Order.fits_iff, Fill.fits_iff,
      OrderId.codec, OrderHash.codec, MarketId.codec, CancelReason.codec]

theorem SequencedEvent.fits {se : SequencedEvent} (hseq : se.seqId < 2 ^ 64)
    (hcounters : ∀ n ∈ se.event.counters, n < 2 ^ 64) : codec.Fits se := by
  simpa [codec, fields, Event.fits hcounters] using hseq

/-! ## Snapshot files -/

def MarketConfig.fields : Fields MarketConfig :=
  (Fields.cons "id" MarketId.codec <|
    .cons "base_asset" .string <|
    .cons "quote_asset" .string <|
    .cons "tick_size" .u64 <|
    .cons "lot_size" .u64 <|
    .cons "fee_bps_maker" .u64 <|
    .cons "fee_bps_taker" .u64 <|
    .cons "status" MarketStatus.codec .nil).map
    (fun (id, baseAsset, quoteAsset, tickSize, lotSize, feeBpsMaker,
        feeBpsTaker, status, ()) =>
      ⟨id, baseAsset, quoteAsset, tickSize, lotSize, feeBpsMaker, feeBpsTaker,
        status⟩)
    (fun market => (market.id, market.baseAsset, market.quoteAsset,
      market.tickSize, market.lotSize, market.feeBpsMaker, market.feeBpsTaker,
      market.status, ()))
    fun _ => rfl

def MarketConfig.codec : Codec MarketConfig := fields.codec (by decide)

def Snapshot.fields : Fields Snapshot :=
  (Fields.cons "schema_version" .u16 <|
    .cons "snapshot_seq" .counter <|
    .cons "state_checksum" .string <|
    .cons "created_at_ms" .u64 <|
    .cons "events" SequencedEvent.codec.list <|
    .cons "markets" MarketConfig.codec.list .nil).map
    (fun (schemaVersion, snapshotSeq, stateChecksum, createdAtMs, events,
        markets, ()) =>
      ⟨schemaVersion, snapshotSeq, stateChecksum, createdAtMs, events,
        markets⟩)
    (fun snap => (snap.schemaVersion, snap.snapshotSeq, snap.stateChecksum,
      snap.createdAtMs, snap.events, snap.markets, ()))
    fun _ => rfl

def Snapshot.codec : Codec Snapshot := fields.codec (by decide)

theorem MarketConfig.fits (market : MarketConfig) : codec.Fits market := by
  simp [codec, fields, MarketId.codec, MarketStatus.codec]

theorem Snapshot.fits {snap : Snapshot} (hseq : snap.snapshotSeq < 2 ^ 64)
    (hevents : ∀ se ∈ snap.events, SequencedEvent.codec.Fits se) :
    codec.Fits snap := by
  simpa [codec, fields, MarketConfig.fits] using And.intro hseq hevents

end ClobApi
