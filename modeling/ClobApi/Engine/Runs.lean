import ClobApi.Engine.Moments
import ClobApi.Foundation.Run
import ClobApi.Ops.Admin
import ClobApi.Replay.Rebuild

/-!
# Runs of the engine

The callers of the engine apply its operations one after the other under one
lock.  A step of a run is one operation with what it reads from outside; the
server draws order ids that were not accepted before, and recovery restores the
engine's own log.
-/

namespace ClobApi

open Foundation

inductive Op where
  | addMarket (config : MarketConfig)
  | processOrder (signed : SignedOrder) (env : CallEnv)
  | processCancel (orderId : OrderId) (traderId : String) (wall : Nat → UInt64)
  | pauseMarket (marketId triggeredBy : String) (wall : Nat → UInt64)
  | resumeMarket (marketId triggeredBy : String) (wall : Nat → UInt64)
  | cancelAllOrders (marketId : String) (wall : Nat → UInt64)
  | restoreFromEvents (shuffle : Shuffle Order) (events : List SequencedEvent)

inductive Reply where
  | added
  | order (outcome : Outcome EngineError OrderResult)
  | cancel (outcome : Outcome CancelError CancelResult)
  | admin (answer : Except AdminError Nat)
  | restored (answer : Except ReplayError Unit)

def Reply.panicked : Reply → Bool
  | .order .panic | .cancel .panic => true
  | _ => false

def Op.isBasic : Op → Bool
  | .addMarket .. | .processOrder .. | .processCancel ..
  | .pauseMarket .. | .resumeMarket .. => true
  | .cancelAllOrders .. | .restoreFromEvents .. => false

def Op.isTrading : Op → Bool
  | .cancelAllOrders .. => false
  | _ => true

theorem Op.isTrading_of_isBasic {op : Op} (h : op.isBasic = true) :
    op.isTrading = true := by
  cases op with
  | cancelAllOrders => cases h
  | _ => rfl

namespace Engine

def apply (crypto : Crypto) (e : Engine) : Op → Engine × Reply
  | .addMarket config => (e.addMarket config, .added)
  | .processOrder signed env =>
      let (e, outcome) := e.processOrder crypto signed env
      (e, .order outcome)
  | .processCancel orderId traderId wall =>
      let (e, outcome) := e.processCancel orderId traderId wall
      (e, .cancel outcome)
  | .pauseMarket marketId triggeredBy wall =>
      let (e, answer) := e.pauseMarket marketId triggeredBy wall
      (e, .admin answer)
  | .resumeMarket marketId triggeredBy wall =>
      let (e, answer) := e.resumeMarket marketId triggeredBy wall
      (e, .admin answer)
  | .cancelAllOrders marketId wall =>
      let (e, answer) := e.cancelAllOrders marketId wall
      (e, .admin answer)
  | .restoreFromEvents shuffle events =>
      let (e, answer) := e.restoreFromEvents shuffle events
      (e, .restored answer)

def applyAll (crypto : Crypto) (e : Engine) (ops : List Op) : Engine :=
  ops.foldl (fun e op => (e.apply crypto op).1) e

/-- Fresh server ids, and recovery from the engine's own log. -/
def Admits (e : Engine) : Op → Prop
  | .processOrder _ env =>
      ∀ order ∈ accepted e.log, order.orderId ≠ env.newOrderId
  | .restoreFromEvents _ events => events = e.log
  | _ => True

instance (e : Engine) (op : Op) : Decidable (e.Admits op) := by
  cases op <;> unfold Admits <;> infer_instance

/--
The book and the order that a submission hands to `match_order`, if it gets
there.
-/
def matchInput (crypto : Crypto) (e : Engine) (signed : SignedOrder)
    (env : CallEnv) : Option (OrderBook × Order) :=
  match e.checkIntake crypto signed env.nowMs,
    e.sequencer.idempotencyCheck signed.traderId signed.clientOrderId,
    e.state.checkAndUpdateNonce signed.traderId signed.nonce with
  | .ok (), none, .ok _ =>
      (e.books.get? signed.marketId.value).map fun book =>
        (book, buildOrder crypto signed env e.sequencer.peekNextSeqId)
  | _, _, _ => none

/--
The fills an operation makes, each with the state of matching in which it is
made.
-/
def moments (crypto : Crypto) (e : Engine) : Op → List (MatchState × Fill)
  | .processOrder signed env =>
      match e.matchInput crypto signed env with
      | some (book, order) =>
          fillMoments book order order.createdSequence env.nowMs
      | none => []
  | _ => []

def allMoments (crypto : Crypto) : Engine → List Op → List (MatchState × Fill)
  | _, [] => []
  | e, op :: ops =>
      e.moments crypto op ++ allMoments crypto (e.apply crypto op).1 ops

end Engine

/-! ## Steps -/

section Steps

variable (crypto : Crypto)

def Step (e : Engine) (op : Op) (e' : Engine) : Prop :=
  e.Admits op ∧ (e.apply crypto op).1 = e'

def CompletedStep (e : Engine) (op : Op) (e' : Engine) : Prop :=
  Step crypto e op e' ∧ (e.apply crypto op).2.panicked = false

def BasicStep (e : Engine) (op : Op) (e' : Engine) : Prop :=
  Step crypto e op e' ∧ op.isBasic = true

def TradingStep (e : Engine) (op : Op) (e' : Engine) : Prop :=
  Step crypto e op e' ∧ op.isTrading = true

end Steps

theorem applyAll_append (crypto : Crypto) (e : Engine)
    (ops : List Op) (op : Op) :
    e.applyAll crypto (ops ++ [op]) =
      ((e.applyAll crypto ops).apply crypto op).1 := by
  simp [Engine.applyAll]

theorem Step.run_applyAll {crypto : Crypto} {init e : Engine} {ops : List Op}
    (h : Run (Step crypto) init ops e) : e = init.applyAll crypto ops := by
  induction h with
  | start => rfl
  | next _ hstep ih =>
      rw [applyAll_append, ← ih]
      exact hstep.2.symm

theorem Step.run_trading {crypto : Crypto} {init e : Engine} {ops : List Op}
    (h : Run (Step crypto) init ops e)
    (htrading : ∀ op ∈ ops, op.isTrading = true) :
    Run (TradingStep crypto) init ops e := by
  induction h with
  | start => exact .start
  | next _ hstep ih =>
      exact .next (ih fun op hop => htrading op (List.mem_append_left _ hop))
        ⟨hstep, htrading _ (by simp)⟩

theorem allMoments_append (crypto : Crypto) (e : Engine)
    (ops : List Op) (op : Op) :
    e.allMoments crypto (ops ++ [op]) =
      e.allMoments crypto ops ++ (e.applyAll crypto ops).moments crypto op := by
  induction ops generalizing e with
  | nil => simp [Engine.allMoments, Engine.applyAll]
  | cons first ops ih =>
      simp only [List.cons_append, Engine.allMoments, ih, List.append_assoc]
      rfl

/-! ## What a submission does -/

namespace Engine

structure Submits (crypto : Crypto) (e : Engine) (signed : SignedOrder)
    (env : CallEnv) : Prop where
  intake : e.checkIntake crypto signed env.nowMs = .ok ()
  unseen : e.sequencer.idempotencyCheck signed.traderId
    signed.clientOrderId = none
  nonce : e.state.lastNonce signed.traderId < signed.nonce

def afterAccept (crypto : Crypto) (e : Engine) (signed : SignedOrder)
    (env : CallEnv) : Engine :=
  acceptOrder
    { e with
      state := { e.state with
        nonces := e.state.nonces.insert signed.traderId signed.nonce } }
    (buildOrder crypto signed env e.sequencer.peekNextSeqId) env

variable {crypto : Crypto} {e : Engine} {signed : SignedOrder} {env : CallEnv}

theorem checkAndUpdateNonce_of_lt
    (h : e.state.lastNonce signed.traderId < signed.nonce) :
    e.state.checkAndUpdateNonce signed.traderId signed.nonce =
      .ok { e.state with
        nonces := e.state.nonces.insert signed.traderId signed.nonce } := by
  simp [StateStore.checkAndUpdateNonce, UInt64.not_le.mpr h]

/-- A submission answers without a change or is accepted and executed. -/
theorem processOrder_cases (crypto : Crypto) (e : Engine) (signed : SignedOrder)
    (env : CallEnv) :
    (∃ outcome, e.processOrder crypto signed env = (e, outcome) ∧
      outcome ≠ .panic ∧ e.matchInput crypto signed env = none) ∨
    (Submits crypto e signed env ∧
      e.processOrder crypto signed env =
        (e.afterAccept crypto signed env).executeOrder
          (buildOrder crypto signed env e.sequencer.peekNextSeqId) env) := by
  unfold processOrder matchInput
  cases hintake : e.checkIntake crypto signed env.nowMs with
  | error error => exact .inl ⟨_, rfl, by simp, rfl⟩
  | ok =>
      cases hunseen :
        e.sequencer.idempotencyCheck signed.traderId signed.clientOrderId with
      | some record => exact .inl ⟨_, rfl, by simp, rfl⟩
      | none =>
          by_cases hnonce : e.state.lastNonce signed.traderId < signed.nonce
          · rw [checkAndUpdateNonce_of_lt hnonce]
            exact .inr ⟨⟨hintake, hunseen, hnonce⟩, rfl⟩
          · have hrejected :
                e.state.checkAndUpdateNonce signed.traderId signed.nonce =
                  .error ⟨e.state.lastNonce signed.traderId, signed.nonce⟩ := by
              simp [StateStore.checkAndUpdateNonce, UInt64.not_lt.mp hnonce]
            rw [hrejected]
            exact .inl ⟨_, rfl, by simp, rfl⟩

theorem Submits.matchInput (h : Submits crypto e signed env) :
    e.matchInput crypto signed env =
      (e.books.get? signed.marketId.value).map fun book =>
        (book, buildOrder crypto signed env e.sequencer.peekNextSeqId) := by
  simp only [Engine.matchInput, h.intake, h.unseen,
    checkAndUpdateNonce_of_lt h.nonce]

theorem checkIntake_ok {nowMs : UInt64}
    (h : e.checkIntake crypto signed nowMs = .ok ()) :
    signed.sizeLots ≠ 0 ∧ ∃ market,
      e.markets.get? signed.marketId.value = some market := by
  unfold checkIntake at h
  split at h
  · cases h
  split at h
  · cases h
  split at h
  · cases h
  split at h
  · cases h
  next market hmarket =>
  split at h
  · cases h
  split at h
  · cases h
  split at h
  · cases h
  next hsize => exact ⟨(MarketConfig.validateSize_ok hsize).1, market, hmarket⟩

/-! ## What the other operations do -/

/-- The order that a trader's cancellation takes out of its book. -/
structure Cancels (e : Engine) (orderId : OrderId) (traderId : String)
    (marketId : String) (book : OrderBook) (order : Order) : Prop where
  index : e.orderMarketIndex.get? orderId = some marketId
  listed : e.books.get? marketId = some book
  stored : book.get orderId = some order
  trader : order.traderId = traderId
  active : order.isClosed = false

def afterCancel (e : Engine) (orderId : OrderId) (marketId : String)
    (book : OrderBook) (order : Order) (wall : Nat → UInt64) : Engine :=
  { e.appendEvent wall
      (.orderCancelled orderId order.orderHash .traderRequest) with
    state := e.state.cancelOrder order.orderHash.bytes
    books := e.books.insert marketId (book.cancel orderId).1 }

theorem Cancels.processCancel_eq {orderId : OrderId} {traderId : String}
    {marketId : String} {book : OrderBook} {order : Order}
    (h : e.Cancels orderId traderId marketId book order)
    (wall : Nat → UInt64) :
    e.processCancel orderId traderId wall =
      (e.afterCancel orderId marketId book order wall,
        .ok ⟨orderId, some e.sequencer.peekNextSeqId, false⟩) := by
  simp only [processCancel, h.index, h.listed, h.stored, h.trader, h.active,
    ne_eq, not_true_eq_false, if_false, Bool.false_eq_true]
  rfl

theorem processCancel_cases (e : Engine) (orderId : OrderId) (traderId : String)
    (wall : Nat → UInt64) :
    ((e.processCancel orderId traderId wall).1 = e ∧
      ∀ result, (e.processCancel orderId traderId wall).2 = .ok result →
        result.wasAlreadyClosed = true) ∨
    ∃ marketId book order,
      e.Cancels orderId traderId marketId book order := by
  cases hindex : e.orderMarketIndex.get? orderId with
  | none => exact .inl (by simp [processCancel, hindex])
  | some marketId =>
      cases hbook : e.books.get? marketId with
      | none => exact .inl (by simp [processCancel, hindex, hbook])
      | some book =>
          cases hstored : book.get orderId with
          | none => exact .inl (by simp [processCancel, hindex, hbook, hstored])
          | some order =>
              by_cases htrader : order.traderId = traderId
              · cases hclosed : order.isClosed with
                | true =>
                    have hrefuses : e.processCancel orderId traderId wall =
                        (e, .ok ⟨orderId, none, true⟩) := by
                      simp [processCancel, hindex, hbook, hstored, htrader,
                        hclosed]
                    rw [hrefuses]
                    exact .inl ⟨rfl, fun result hok => by cases hok; rfl⟩
                | false =>
                    exact .inr ⟨marketId, book, order, hindex, hbook, hstored,
                      htrader, hclosed⟩
              · refine .inl ?_
                simp [processCancel, hindex, hbook, hstored, htrader]

theorem switchMarket_eq {marketId : String} {market : MarketConfig}
    {source target : MarketStatus} (hfind : e.findMarket marketId = some market)
    (htarget : market.status ≠ target) (hsource : market.status = source)
    (event : Event) (wall : Nat → UInt64) :
    e.switchMarket marketId source target event wall =
      ((e.addMarket { market with status := target }).appendEvent wall event,
        .ok e.sequencer.peekNextSeqId) := by
  simp only [switchMarket, hfind]
  rw [if_neg htarget, if_pos hsource]

theorem switchMarket_cases (e : Engine) (marketId : String)
    (source target : MarketStatus) (event : Event) (wall : Nat → UInt64) :
    (∃ error, e.switchMarket marketId source target event wall =
      (e, .error error)) ∨
    ∃ market, e.findMarket marketId = some market ∧
      market.status ≠ target ∧ market.status = source := by
  unfold switchMarket
  cases hfind : e.findMarket marketId with
  | none => exact .inl ⟨_, rfl⟩
  | some market =>
      by_cases htarget : market.status = target
      · exact .inl ⟨_, if_pos htarget⟩
      · by_cases hsource : market.status = source
        · exact .inr ⟨market, rfl, htarget, hsource⟩
        · exact .inl ⟨_, by simp only [if_neg htarget, if_neg hsource]; rfl⟩

theorem findMarket_id {marketId : String} {market : MarketConfig}
    (h : e.findMarket marketId = some market) : market.id.value = marketId := by
  simpa using List.find?_some h

end Engine

theorem restoreFromEvents_log (e : Engine) (shuffle : Shuffle Order) :
    (e.restoreFromEvents shuffle e.log).1.log = e.log := by
  unfold Engine.restoreFromEvents
  split
  · rfl
  · split <;> rfl

/-! ## Sample sessions -/

namespace Sample

def market : MarketConfig where
  id := ⟨"BTC-USD"⟩
  baseAsset := "BTC"
  quoteAsset := "USD"
  tickSize := 1
  lotSize := 1
  feeBpsMaker := 10
  feeBpsTaker := 20
  status := .active

def askPubkey : Bytes32 :=
  #v[138, 136, 227, 221, 116, 9, 241, 149, 253, 82, 219, 45, 60, 186, 93, 114,
    202, 103, 9, 191, 29, 148, 18, 27, 243, 116, 136, 1, 180, 15, 111, 92]

def askHash : Bytes32 :=
  #v[14, 111, 2, 124, 228, 145, 240, 81, 85, 123, 85, 92, 207, 190, 150, 150,
    41, 83, 159, 62, 110, 35, 34, 38, 235, 132, 204, 84, 212, 118, 104, 140]

def ask : SignedOrder where
  schemaVersion := 1
  clientOrderId := "ask-1"
  marketId := ⟨"BTC-USD"⟩
  traderId := "8a88e3dd7409f195fd52db2d3cba5d72ca6709bf1d94121bf3748801b40f6f5c"
  side := .sell
  priceTicks := 100
  sizeLots := 10
  timeInForce := .gtc
  nonce := 1
  expiryTsMs := 0
  createdAtMs := 1000
  salt := 7
  traderPubkey := askPubkey
  signature :=
    #v[167, 241, 153, 212, 54, 139, 221, 230, 207, 188, 10, 241, 87, 198, 171,
      254, 85, 255, 200, 114, 244, 253, 180, 48, 92, 98, 10, 222, 217, 217, 15,
      187, 143, 124, 218, 50, 40, 27, 219, 157, 90, 48, 107, 111, 90, 55, 197,
      93, 153, 211, 174, 218, 41, 203, 52, 230, 191, 106, 200, 207, 77, 208, 73,
      2]

def bidPubkey : Bytes32 :=
  #v[129, 57, 119, 14, 168, 125, 23, 95, 86, 163, 84, 102, 195, 76, 126, 204,
    203, 141, 138, 145, 180, 238, 55, 162, 93, 246, 15, 91, 143, 201, 179, 148]

def bidHash : Bytes32 :=
  #v[159, 136, 191, 109, 126, 146, 200, 70, 86, 56, 6, 92, 154, 239, 122, 110,
    153, 48, 26, 83, 170, 25, 170, 250, 235, 44, 43, 111, 254, 255, 10, 253]

def bid : SignedOrder where
  schemaVersion := 1
  clientOrderId := "bid-1"
  marketId := ⟨"BTC-USD"⟩
  traderId := "8139770ea87d175f56a35466c34c7ecccb8d8a91b4ee37a25df60f5b8fc9b394"
  side := .buy
  priceTicks := 100
  sizeLots := 4
  timeInForce := .gtc
  nonce := 1
  expiryTsMs := 0
  createdAtMs := 1000
  salt := 8
  traderPubkey := bidPubkey
  signature :=
    #v[114, 243, 45, 158, 138, 194, 85, 16, 67, 159, 0, 231, 250, 158, 125, 152,
      26, 200, 94, 52, 103, 42, 30, 109, 211, 87, 49, 166, 165, 25, 143, 131,
      183, 218, 184, 151, 172, 104, 93, 213, 102, 217, 108, 56, 226, 75, 191,
      255, 82, 68, 110, 32, 253, 14, 223, 185, 101, 45, 138, 117, 71, 62, 222,
      14]

def ownBidHash : Bytes32 :=
  #v[31, 44, 144, 111, 4, 106, 28, 38, 80, 38, 118, 170, 54, 252, 230, 145, 41,
    197, 254, 151, 52, 70, 202, 50, 131, 93, 106, 196, 248, 154, 67, 221]

def ownBid : SignedOrder where
  schemaVersion := 1
  clientOrderId := "bid-2"
  marketId := ⟨"BTC-USD"⟩
  traderId := ask.traderId
  side := .buy
  priceTicks := 95
  sizeLots := 3
  timeInForce := .gtc
  nonce := 2
  expiryTsMs := 0
  createdAtMs := 1000
  salt := 9
  traderPubkey := askPubkey
  signature :=
    #v[95, 136, 21, 12, 139, 158, 45, 167, 5, 68, 248, 230, 107, 192, 12, 93,
      196, 46, 191, 43, 122, 69, 121, 140, 150, 97, 68, 246, 237, 60, 185, 1,
      191, 87, 24, 200, 46, 185, 165, 230, 9, 55, 39, 9, 76, 109, 237, 177, 239,
      169, 96, 16, 19, 65, 107, 190, 181, 149, 149, 242, 221, 90, 228, 10]

/-- SHA-256 and ed25519 on the messages of the sessions. -/
def crypto : Crypto where
  sha256 := fun bytes =>
    if bytes = ask.canonicalBytes then askHash
    else if bytes = bid.canonicalBytes then bidHash
    else if bytes = ownBid.canonicalBytes then ownBidHash
    else .replicate 32 0
  validPublicKey := fun key => key = askPubkey ∨ key = bidPubkey
  verify := fun key message signature =>
    (key, message, signature) = (askPubkey, askHash, ask.signature) ∨
      (key, message, signature) = (bidPubkey, bidHash, bid.signature) ∨
      (key, message, signature) = (askPubkey, ownBidHash, ownBid.signature)

def wall : Nat → UInt64 := fun _ => 2000

def askEnv : CallEnv := ⟨2000, ⟨"ask"⟩, wall⟩

def bidEnv : CallEnv := ⟨2000, ⟨"bid"⟩, wall⟩

/-- A sell order of ten lots rests, a buy order takes four of them. -/
def traded : List Op :=
  [.addMarket market, .processOrder ask askEnv, .processOrder bid bidEnv]

/-- One trader rests on both sides. -/
def twoSided : List Op :=
  [.addMarket market, .processOrder ask askEnv, .processOrder ownBid bidEnv]

def cancelled : List Op :=
  [.addMarket market, .processOrder ask askEnv,
    .processCancel ⟨"ask"⟩ ask.traderId wall]

def after (ops : List Op) : Engine := Engine.new.applyAll crypto ops

def askOrder : Order where
  orderId := ⟨"ask"⟩
  clientOrderId := ask.clientOrderId
  orderHash := ⟨askHash⟩
  marketId := market.id
  traderId := ask.traderId
  traderPubkey := askPubkey
  side := .sell
  priceTicks := 100
  origSizeLots := 10
  filledSizeLots := 0
  timeInForce := .gtc
  nonce := 1
  expiryTsMs := 0
  status := .open
  createdSequence := 1
  lastUpdateSequence := 1
  acceptedAtMs := 2000

def bidOrder : Order where
  orderId := ⟨"bid"⟩
  clientOrderId := bid.clientOrderId
  orderHash := ⟨bidHash⟩
  marketId := market.id
  traderId := bid.traderId
  traderPubkey := bidPubkey
  side := .buy
  priceTicks := 100
  origSizeLots := 4
  filledSizeLots := 0
  timeInForce := .gtc
  nonce := 1
  expiryTsMs := 0
  status := .open
  createdSequence := 2
  lastUpdateSequence := 2
  acceptedAtMs := 2000

def tradedLog : List SequencedEvent :=
  [⟨1, 2000, .orderAccepted askOrder⟩, ⟨2, 2000, .orderAccepted bidOrder⟩,
    ⟨3, 2000, .fill (makeFill bidOrder askOrder 100 4 2 2000)⟩]

theorem ask_log : (after [.addMarket market, .processOrder ask askEnv]).log =
    [⟨1, 2000, .orderAccepted askOrder⟩] := by
  decide +kernel

theorem traded_log : (after traded).log = tradedLog ∧
    (after traded).markets.bindings = [("BTC-USD", market)] := by
  decide +kernel

theorem asked_run :
    Run (BasicStep crypto) .new [.addMarket market, .processOrder ask askEnv]
      (after [.addMarket market, .processOrder ask askEnv]) := by
  have hask : (after [.addMarket market]).Admits (.processOrder ask askEnv) :=
    nofun
  exact .next (.next .start ⟨⟨trivial, rfl⟩, rfl⟩) ⟨⟨hask, rfl⟩, rfl⟩

theorem bid_admitted (signed : SignedOrder) :
    (after [.addMarket market, .processOrder ask askEnv]).Admits
      (.processOrder signed bidEnv) := by
  change ∀ order ∈ accepted (after _).log, order.orderId ≠ ⟨"bid"⟩
  rw [ask_log]
  decide

theorem traded_run : Run (BasicStep crypto) .new traded (after traded) :=
  .next asked_run ⟨⟨bid_admitted bid, rfl⟩, rfl⟩

theorem twoSided_run :
    Run (BasicStep crypto) .new twoSided (after twoSided) :=
  .next asked_run ⟨⟨bid_admitted ownBid, rfl⟩, rfl⟩

theorem cancelled_run :
    Run (BasicStep crypto) .new cancelled (after cancelled) :=
  .next asked_run ⟨⟨trivial, rfl⟩, rfl⟩

def recovering (ops : List Op) : List Op :=
  ops ++ [.restoreFromEvents .id (after ops).log]

theorem after_recovering (ops : List Op) :
    after (recovering ops) =
      ((after ops).restoreFromEvents .id (after ops).log).1 :=
  applyAll_append crypto .new ops _

theorem recovering_log (ops : List Op) :
    (after (recovering ops)).log = (after ops).log := by
  rw [after_recovering, restoreFromEvents_log]

theorem apply_restore (ops : List Op) :
    ((after ops).apply crypto (.restoreFromEvents .id (after ops).log)).1 =
      after (recovering ops) :=
  (after_recovering ops).symm

theorem recovering_run {ops : List Op}
    (h : Run (Step crypto) .new ops (after ops)) :
    Run (Step crypto) .new (recovering ops) (after (recovering ops)) :=
  .next h ⟨rfl, apply_restore ops⟩

end Sample

end ClobApi
