import ClobApi.Engine.Runs

/-!
# What the intake checks depend on

Steps 1 to 5 of `process_order` check the signed order itself, the clock and the
market.  Only the last two can change between two submissions of one order.
-/

namespace ClobApi

open Foundation

namespace SignedOrder

structure Complete (signed : SignedOrder) : Prop where
  schemaVersion : signed.schemaVersion = currentSchemaVersion
  marketId : signed.marketId.value.isEmpty = false
  traderId : signed.traderId.isEmpty = false
  clientOrderId : signed.clientOrderId.isEmpty = false
  priceTicks : signed.priceTicks ≠ 0
  sizeLots : signed.sizeLots ≠ 0

def Unexpired (signed : SignedOrder) (nowMs : UInt64) : Prop :=
  signed.expiryTsMs = 0 ∨ nowMs < signed.expiryTsMs

instance (signed : SignedOrder) : DecidablePred signed.Unexpired :=
  fun _ => inferInstanceAs (Decidable (_ ∨ _))

structure Authentic (crypto : Crypto) (signed : SignedOrder) : Prop where
  signature : signed.verifySignature crypto = .ok ()
  traderId : signed.traderId = hexEncode signed.traderPubkey.toList

theorem validateFields_ok_iff {signed : SignedOrder} {nowMs : UInt64} :
    signed.validateFields nowMs = .ok () ↔
      signed.Complete ∧ signed.Unexpired nowMs := by
  unfold validateFields Unexpired
  constructor
  · intro h
    split at h <;> try cases h
    next hschema =>
    split at h <;> try cases h
    next hmarket =>
    split at h <;> try cases h
    next htrader =>
    split at h <;> try cases h
    next hclient =>
    split at h <;> try cases h
    next hprice =>
    split at h <;> try cases h
    next hsize =>
    split at h <;> try cases h
    next hexpiry =>
    refine ⟨⟨by simpa using hschema, by simpa using hmarket,
      by simpa using htrader, by simpa using hclient, hprice, hsize⟩, ?_⟩
    simpa [Classical.or_iff_not_imp_left] using hexpiry
  · rintro ⟨h, hexpiry⟩
    have hfresh : ¬ (signed.expiryTsMs ≠ 0 ∧ signed.expiryTsMs ≤ nowMs) := by
      rintro ⟨hne, hle⟩
      rcases hexpiry with hzero | hlt
      · exact hne hzero
      · exact UInt64.not_le.mpr hlt hle
    simp [h.schemaVersion, h.marketId, h.traderId, h.clientOrderId,
      h.priceTicks, h.sizeLots, hfresh]

end SignedOrder

namespace Engine

/-- What steps 4 and 5 check. -/
def Trades (e : Engine) (signed : SignedOrder) : Prop :=
  ∃ market, e.markets.get? signed.marketId.value = some market ∧
    market.isActive = true ∧
    market.validatePrice signed.priceTicks = .ok () ∧
    market.validateSize signed.sizeLots = .ok ()

structure Intake (crypto : Crypto) (e : Engine) (signed : SignedOrder)
    (nowMs : UInt64) : Prop where
  complete : signed.Complete
  unexpired : signed.Unexpired nowMs
  authentic : signed.Authentic crypto
  trades : e.Trades signed

theorem checkIntake_ok_iff {crypto : Crypto} {e : Engine}
    {signed : SignedOrder} {nowMs : UInt64} :
    e.checkIntake crypto signed nowMs = .ok () ↔
      e.Intake crypto signed nowMs := by
  unfold checkIntake
  constructor
  · intro h
    split at h <;> try cases h
    next hfields =>
    obtain ⟨hcomplete, hunexpired⟩ :=
      SignedOrder.validateFields_ok_iff.mp hfields
    split at h <;> try cases h
    next hsignature =>
    split at h <;> try cases h
    next htrader =>
    split at h <;> try cases h
    next market hmarket =>
    split at h <;> try cases h
    next hactive =>
    split at h <;> try cases h
    next hprice =>
    split at h <;> try cases h
    next hsize =>
    exact ⟨hcomplete, hunexpired, ⟨hsignature, by simpa using htrader⟩,
      market, hmarket, by simpa using hactive, hprice, hsize⟩
  · rintro ⟨hcomplete, hunexpired, ⟨hsignature, htrader⟩, market, hmarket,
      hactive, hprice, hsize⟩
    simp only [SignedOrder.validateFields_ok_iff.mpr ⟨hcomplete, hunexpired⟩,
      hsignature, hmarket, hactive, hprice, hsize]
    simp [htrader]

end Engine

end ClobApi
