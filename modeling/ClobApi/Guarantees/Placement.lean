import ClobApi.Cli
import ClobApi.Guarantees.Provenance
import ClobApi.Guarantees.Replies

/-!
# Orders placed from the command line

The client and the server agree: an order that `clob place` signs is read as it
was sent, no check of its form or its signature fails, and the key that placed
an order cancels it.
-/

namespace ClobApi

open Foundation

/-! ## Key files -/

theorem dropWhile_eq_self {α : Type} {p : α → Bool} {l : List α}
    (h : ∀ a ∈ l, p a = false) : l.dropWhile p = l := by
  cases l with
  | nil => rfl
  | cons a l => rw [List.dropWhile_cons_of_neg (by simp [h a (.head _)])]

theorem isWhiteSpace_hexDigit {n : UInt8} (h : n.toNat < 16) :
    isWhiteSpace (hexDigit n) = false := by
  have hall : ∀ k < 16, isWhiteSpace (hexDigit (UInt8.ofNat k)) = false := by
    decide +kernel
  have hn := hall n.toNat h
  rwa [UInt8.ofNat_toNat] at hn

theorem trim_hexEncode (bytes : List UInt8) :
    trim (hexEncode bytes) = hexEncode bytes := by
  have hclean : ∀ c ∈ (hexEncode bytes).toList, isWhiteSpace c = false := by
    intro c hc
    rw [hexEncode, String.toList_ofList, List.mem_flatMap] at hc
    obtain ⟨b, -, hdigit⟩ := hc
    have hb := b.toNat_lt
    rcases List.mem_pair.mp hdigit with rfl | rfl
    · refine isWhiteSpace_hexDigit ?_
      rw [UInt8.toNat_div]
      change b.toNat / 16 < 16
      omega
    · refine isWhiteSpace_hexDigit ?_
      rw [UInt8.toNat_mod]
      exact Nat.mod_lt _ (by decide)
  unfold trim
  rw [dropWhile_eq_self hclean, dropWhile_eq_self, List.reverse_reverse,
    String.ofList_toList]
  exact fun c hc => hclean c (List.mem_reverse.mp hc)

theorem loadKey_keygen (seed : Bytes32) :
    loadKey (some (keygen seed)) = .ok seed := by
  unfold loadKey keygen
  dsimp only
  rw [trim_hexEncode, hexDecode_hexEncode]
  dsimp only
  rw [dif_pos seed.length_toList]
  rfl

theorem hexEncode_isEmpty (bytes : Bytes32) :
    (hexEncode bytes.toList).isEmpty = false := by
  rw [String.isEmpty_eq_false_iff]
  intro hempty
  have hbytes := hexDecode_hexEncode bytes.toList
  rw [hempty] at hbytes
  have hlength := congrArg List.length (Option.some.inj hbytes)
  rw [bytes.length_toList] at hlength
  cases hlength

/-! ## The order that is sent -/

section Sent

variable {crypto : Crypto} {signer : Signer} {seed : Bytes32}
  {args : PlaceArgs} {penv : PlaceEnv} {signed : SignedOrder}

theorem verifySignature_signWith (hlawful : signer.Lawful crypto)
    {order : SignedOrder} (hkey : order.traderPubkey = signer.publicKey seed) :
    (order.signWith crypto signer seed).verifySignature crypto = .ok () := by
  have hhash : (order.signWith crypto signer seed).canonicalHash crypto =
      order.canonicalHash crypto := rfl
  have hpubkey : (order.signWith crypto signer seed).traderPubkey =
      signer.publicKey seed := hkey
  have hverify : crypto.verify (signer.publicKey seed)
      (order.canonicalHash crypto).bytes
      (order.signWith crypto signer seed).signature = true :=
    hlawful.verifies seed _
  simp [SignedOrder.verifySignature, hhash, hpubkey, hverify, hlawful.valid]

/-- What the trader has chosen stands in the order, and it is signed. -/
structure Sent (crypto : Crypto) (signer : Signer) (seed : Bytes32)
    (args : PlaceArgs) (penv : PlaceEnv) (signed : SignedOrder) : Prop where
  schemaVersion : signed.schemaVersion = currentSchemaVersion
  clientOrderId : signed.clientOrderId = args.clientId.getD penv.uuid
  marketId : signed.marketId = ⟨args.market⟩
  traderId : signed.traderId = hexEncode (signer.publicKey seed).toList
  priceTicks : signed.priceTicks = args.price
  sizeLots : signed.sizeLots = args.size
  nonce : signed.nonce = args.nonce.getD penv.nowMs
  expiryTsMs : signed.expiryTsMs = 0
  authentic : signed.Authentic crypto

theorem cmdPlace_sent (hlawful : signer.Lawful crypto)
    (h : cmdPlace crypto signer args (some (keygen seed)) penv = .ok signed) :
    Sent crypto signer seed args penv signed := by
  unfold cmdPlace at h
  rw [loadKey_keygen] at h
  cases hside : parseSide args.side with
  | error error => simp [hside, bind, Except.bind] at h
  | ok side =>
      simp only [hside, bind, Except.bind, pure, Except.pure,
        Except.ok.injEq] at h
      rw [← h]
      exact ⟨rfl, rfl, rfl, rfl, rfl, rfl, rfl, rfl,
        verifySignature_signWith hlawful rfl, rfl⟩

end Sent

/-! ## The answer of the engine -/

/-- No complaint about the form, the signature or the signer of the order. -/
def EngineError.blamesClient : EngineError → Bool
  | .order (.unsupportedSchemaVersion _) | .order (.expired ..)
  | .order .invalidPublicKey | .order .invalidSignature
  | .order .traderIdMismatch => true
  | .order (.emptyField field) => field == "trader_id"
  | _ => false

/-- What the log and the markets ask of an order. -/
structure Placeable (e : Engine) (signed : SignedOrder) : Prop where
  marketId : signed.marketId.value ≠ ""
  clientOrderId : signed.clientOrderId ≠ ""
  trades : e.Trades signed
  unseen : ∀ order ∈ accepted e.log, order.traderId = signed.traderId →
    order.clientOrderId ≠ signed.clientOrderId
  nonce : 0 < signed.nonce ∧ ∀ order ∈ accepted e.log,
    order.traderId = signed.traderId → order.nonce < signed.nonce

section Answer

variable {crypto : Crypto} {signer : Signer} {seed : Bytes32}
  {args : PlaceArgs} {penv : PlaceEnv} {signed : SignedOrder} {e : Engine}
  {env : CallEnv} {ops : List Op}

/-- The engine takes the order exactly if the log and the market admit it. -/
theorem Sent.submits_iff (hsent : Sent crypto signer seed args penv signed)
    (h : Run (Step crypto) .new ops e) :
    e.Submits crypto signed env ↔ Placeable e signed := by
  have hinv := Step.run_inv h
  have honce := Step.run_atMostOnce h
  have hnonce := lastNonce_lt_iff e.log signed.traderId signed.nonce
  rw [StateStore.lastNonce, ← hinv.state.nonces, ← StateStore.lastNonce]
    at hnonce
  constructor
  · intro hsubmits
    obtain ⟨hcomplete, -, -, htrades⟩ :=
      Engine.checkIntake_ok_iff.mp hsubmits.intake
    refine ⟨?_, ?_, htrades,
      (idempotencyCheck_eq_none_iff hinv.toLogInv honce _ _).mp hsubmits.unseen,
      hnonce.mp hsubmits.nonce⟩
    · exact String.isEmpty_eq_false_iff.mp hcomplete.marketId
    · exact String.isEmpty_eq_false_iff.mp hcomplete.clientOrderId
  · intro hplaceable
    refine ⟨Engine.checkIntake_ok_iff.mpr ⟨⟨hsent.schemaVersion, ?_, ?_, ?_,
      ?_, ?_⟩, .inl hsent.expiryTsMs, hsent.authentic, hplaceable.trades⟩,
      (idempotencyCheck_eq_none_iff hinv.toLogInv honce _ _).mpr
        hplaceable.unseen, hnonce.mpr hplaceable.nonce⟩
    · exact String.isEmpty_eq_false_iff.mpr hplaceable.marketId
    · rw [hsent.traderId]
      exact hexEncode_isEmpty _
    · exact String.isEmpty_eq_false_iff.mpr hplaceable.clientOrderId
    · obtain ⟨market, -, -, hprice, -⟩ := hplaceable.trades
      exact (MarketConfig.validatePrice_ok hprice).1
    · obtain ⟨market, -, -, -, hsize⟩ := hplaceable.trades
      exact (MarketConfig.validateSize_ok hsize).1

theorem Sent.validateFields_not_blamed
    (hsent : Sent crypto signer seed args penv signed) {nowMs : UInt64}
    {error : OrderError} (herror : signed.validateFields nowMs = .error error) :
    (EngineError.order error).blamesClient = false := by
  unfold SignedOrder.validateFields at herror
  rw [if_neg (not_not.mpr hsent.schemaVersion), hsent.traderId,
    hexEncode_isEmpty, hsent.expiryTsMs] at herror
  split at herror
  · cases herror
    rfl
  split at herror
  · next hempty => cases hempty
  split at herror
  · cases herror
    rfl
  split at herror
  · cases herror
    rfl
  split at herror
  · cases herror
    rfl
  split at herror
  · next hexpiry => exact absurd rfl hexpiry.1
  · cases herror

theorem Sent.checkIntake_not_blamed
    (hsent : Sent crypto signer seed args penv signed) {nowMs : UInt64}
    {error : EngineError}
    (herror : e.checkIntake crypto signed nowMs = .error error) :
    error.blamesClient = false := by
  unfold Engine.checkIntake at herror
  rw [hsent.authentic.signature, if_neg (not_not.mpr hsent.authentic.traderId)]
    at herror
  split at herror
  · next hfields =>
      cases herror
      exact hsent.validateFields_not_blamed hfields
  dsimp only at herror
  split at herror
  · cases herror
    rfl
  split at herror
  · cases herror
    rfl
  split at herror
  · cases herror
    rfl
  split at herror
  · cases herror
    rfl
  · cases herror

theorem Sent.not_blamed (hsent : Sent crypto signer seed args penv signed)
    {error : EngineError}
    (herror : (e.processOrder crypto signed env).2 = .err error) :
    error.blamesClient = false := by
  unfold Engine.processOrder at herror
  split at herror
  · next hintake =>
      cases herror
      exact hsent.checkIntake_not_blamed hintake
  split at herror
  · cases herror
  split at herror
  · cases herror
    rfl
  · unfold Engine.executeOrder at herror
    dsimp only at herror
    split at herror
    · cases herror
    · split at herror <;> cases herror

theorem processOrder_accepted (h : Run (Step crypto) .new ops e)
    (hadmits : e.Admits (.processOrder signed env)) {result : OrderResult}
    (hok : (e.processOrder crypto signed env).2 = .ok result) :
    ∃ order ∈ accepted (e.processOrder crypto signed env).1.log,
      order.orderId = result.orderId ∧ order.traderId = signed.traderId := by
  have hinv := Step.run_inv h
  have haccepted : accepted (e.processOrder crypto signed env).1.log = _ :=
    Engine.accepted_apply hadmits
  by_cases hsubmits : e.Submits crypto signed env
  · cases hbook : e.books.get? signed.marketId.value with
    | none =>
        rw [hsubmits.panics hbook] at hok
        cases hok
    | some book =>
        obtain ⟨e', hdone, -⟩ := hsubmits.completes hbook rfl rfl
        rw [hdone] at hok
        cases hok
        rw [Engine.acceptance_of_submits hsubmits] at haccepted
        refine ⟨_, ?_, rfl, rfl⟩
        rw [haccepted]
        exact List.mem_append_right _ (.head _)
  · obtain ⟨hsame, -, hanswer⟩ := Engine.processOrder_rejects hsubmits
    obtain ⟨record, hrecord, rfl⟩ := hanswer result hok
    obtain ⟨order, horder, htrader, -, hid⟩ := idempotencyCheck_accepted
      hinv.toLogInv (Step.run_atMostOnce h) hrecord
    rw [hsame]
    exact ⟨order, horder, hid, htrader⟩

theorem processCancel_authorized (h : e.Inv False False noOrder) {order : Order}
    (horder : order ∈ accepted e.log) (wall : Nat → UInt64) :
    (e.processCancel order.orderId order.traderId wall).2 ≠
      .err (.unauthorized order.traderId) := by
  unfold Engine.processCancel
  split
  · simp
  next marketId hindex =>
    split
    · simp
    next book hbook =>
      split
      · simp
      next live hlive =>
        have htrader : live.traderId = order.traderId := by
          obtain ⟨known, hknown, hid, hterms⟩ := h.stored_accepted
            (storedOrder_eq_some.mpr ⟨book, hbook, hlive⟩)
          obtain rfl := h.legal.eq_of_orderId hknown horder hid
          simpa using (congrArg Order.traderId hterms).symm
        rw [if_neg (not_not.mpr htrader)]
        split <;> simp

/--
An order that the command line signs arrives as it was sent.  It is accepted
exactly if the log and the markets admit it, a refusal never blames the client,
and the key that has placed an order may cancel it ever after.
-/
theorem placed_order_answered (hlawful : signer.Lawful crypto)
    (h : Run (Step crypto) .new ops e)
    (hadmits : e.Admits (.processOrder signed env))
    (hplace : cmdPlace crypto signer args (some (keygen seed)) penv =
      .ok signed) :
    SignedOrder.codec.decode (SignedOrder.codec.encode signed) = some signed ∧
      ((∃ order ∈ accepted (e.processOrder crypto signed env).1.log,
        order.orderId = env.newOrderId) ↔ Placeable e signed) ∧
      (∀ error, (e.processOrder crypto signed env).2 = .err error →
        error.blamesClient = false) ∧
      ∀ result, (e.processOrder crypto signed env).2 = .ok result →
        ∀ later e', Run (Step crypto) (e.processOrder crypto signed env).1
          later e' →
        ∃ traderId, keyTraderId signer (some (keygen seed)) = .ok traderId ∧
          ∀ wall, (e'.processCancel result.orderId traderId wall).2 ≠
            .err (.unauthorized traderId) := by
  have hsent := cmdPlace_sent hlawful hplace
  have hnext : Run (Step crypto) .new (ops ++ [.processOrder signed env])
      (e.processOrder crypto signed env).1 := .next h ⟨hadmits, rfl⟩
  refine ⟨?_, ?_, fun error => hsent.not_blamed, ?_⟩
  · exact SignedOrder.codec.decode_encode (by simp [SignedOrder.codec,
      SignedOrder.fields, MarketId.codec, Side.codec, TimeInForce.codec])
  · rw [← hsent.submits_iff h]
    have haccepted : accepted (e.processOrder crypto signed env).1.log = _ :=
      Engine.accepted_apply hadmits
    constructor
    · rintro ⟨order, horder, hid⟩
      by_contra hsubmits
      rw [haccepted, Engine.acceptance_of_not_submits hsubmits] at horder
      exact hadmits order (by simpa using horder) hid
    · intro hsubmits
      rw [haccepted, Engine.acceptance_of_submits hsubmits]
      exact ⟨_, List.mem_append_right _ (.head _), rfl⟩
  · intro result hok later e' hlater
    obtain ⟨order, horder, hid, htrader⟩ := processOrder_accepted h hadmits hok
    have hrun := hnext.append hlater
    have hlog := Step.run_log hlater [] later rfl
    have hknown := (accepted_mono hlog).subset horder
    refine ⟨order.traderId, ?_, fun wall => ?_⟩
    · rw [htrader, hsent.traderId, keyTraderId, loadKey_keygen]
      rfl
    · rw [← hid]
      exact processCancel_authorized (Step.run_inv hrun) hknown wall

end Answer

namespace Sample

def bidSeed : Bytes32 := .replicate 32 2

def bidSigner : Signer where
  publicKey := fun seed => if seed = bidSeed then bidPubkey else askPubkey
  sign := fun seed message =>
    if seed = bidSeed ∧ message = bidHash then bid.signature
    else .replicate 64 0

def signedCrypto : Crypto where
  sha256 := crypto.sha256
  validPublicKey := crypto.validPublicKey
  verify := fun key message signature =>
    crypto.verify key message signature ||
      (signature == (.replicate 64 0 : Bytes64))

theorem bidSigner_lawful : bidSigner.Lawful signedCrypto where
  valid seed := by
    by_cases hseed : seed = bidSeed
    · simp [bidSigner, signedCrypto, crypto, hseed]
    · simp [bidSigner, signedCrypto, crypto, hseed]
  verifies seed message := by
    by_cases hbid : seed = bidSeed ∧ message = bidHash
    · simp [bidSigner, signedCrypto, crypto, hbid]
    · simp [bidSigner, signedCrypto, hbid]

def bidArgs : PlaceArgs :=
  ⟨"BTC-USD", "Buy", 100, 4, some "bid-1", some 1⟩

theorem bid_placed : cmdPlace signedCrypto bidSigner bidArgs
    (some (keygen bidSeed)) ⟨1000, "", 8⟩ = .ok bid := by
  decide +kernel

theorem bid_placeable :
    Placeable (Engine.new.addMarket market) bid where
  marketId := by decide
  clientOrderId := by decide
  trades := ⟨market, by decide⟩
  unseen := by decide
  nonce := by decide

theorem placed_order_answered_bid :
    ∃ order ∈ accepted ((Engine.new.addMarket market).processOrder signedCrypto
      bid bidEnv).1.log, order.orderId = ⟨"bid"⟩ :=
  (placed_order_answered bidSigner_lawful
    (.next .start ⟨trivial, rfl⟩ :
      Run (Step signedCrypto) .new [.addMarket market] _)
    (by decide) bid_placed).2.1.mpr bid_placeable

end Sample

end ClobApi
