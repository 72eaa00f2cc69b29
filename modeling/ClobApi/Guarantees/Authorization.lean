import ClobApi.Domain.CanonicalBytes
import ClobApi.Engine.Acceptance

/-!
# What a signature authorises

Accepted orders have distinct canonical bytes, because these end in the trader's
key and a nonce that only grows.  The bytes determine the order unless one
market id reads on through the length prefixes of another.
-/

namespace ClobApi

open Foundation

/-! ## One acceptance for each signed order -/

section Accepted

variable {crypto : Crypto} {ops : List Op} {e : Engine}

/--
The accepted orders of every run come from signed orders with distinct canonical
bytes.
-/
theorem accepted_canonicalBytes_ne (h : Run (Step crypto) .new ops e) :
    accepted e.log = (Engine.new.acceptances crypto ops).map Prod.snd ∧
      ((Engine.new.acceptances crypto ops).Pairwise fun a b =>
        a.1.canonicalBytes ≠ b.1.canonicalBytes) ∧
      (((Engine.new.acceptances crypto ops).Pairwise fun a b =>
          crypto.sha256 a.1.canonicalBytes = crypto.sha256 b.1.canonicalBytes →
          a.1.canonicalBytes = b.1.canonicalBytes) →
        (accepted e.log).Pairwise fun a b => a.orderHash ≠ b.orderHash) := by
  have hbytes : (Engine.new.acceptances crypto ops).Pairwise fun a b =>
      a.1.canonicalBytes ≠ b.1.canonicalBytes := by
    refine (Step.run_nonces h).imp_of_mem fun {a b} ha hb hnonce hsame => ?_
    obtain ⟨-, ⟨-, htraderA⟩, -⟩ := acceptances_built ha
    obtain ⟨-, ⟨-, htraderB⟩, -⟩ := acceptances_built hb
    obtain ⟨-, hfixed⟩ := SignedOrder.canonicalBytes_inj.mp hsame
    have htrader : a.1.traderId = b.1.traderId := by
      rw [htraderA, htraderB, hfixed.traderPubkey]
    have hlt := hnonce htrader
    rw [hfixed.nonce] at hlt
    exact UInt64.lt_irrefl _ hlt
  refine ⟨Step.run_accepted h, hbytes, fun hcollision => ?_⟩
  rw [Step.run_accepted h, List.pairwise_map]
  refine (hbytes.and hcollision).imp_of_mem fun {a b} ha hb hpair hhash => ?_
  obtain ⟨-, -, envA, seqA, horderA⟩ := acceptances_built ha
  obtain ⟨-, -, envB, seqB, horderB⟩ := acceptances_built hb
  rw [horderA, horderB] at hhash
  exact hpair.1 (hpair.2 (congrArg OrderHash.bytes hhash))

end Accepted

theorem Sample.traded_canonicalBytes_ne :
    accepted (after (recovering traded)).log =
        (Engine.new.acceptances crypto (recovering traded)).map Prod.snd ∧
      ((Engine.new.acceptances crypto (recovering traded)).Pairwise fun a b =>
        a.1.canonicalBytes ≠ b.1.canonicalBytes) ∧
      (accepted (after (recovering traded)).log).Pairwise fun a b =>
        a.orderHash ≠ b.orderHash := by
  have hrun := recovering_run (traded_run.mono fun _ _ _ h => h.1)
  obtain ⟨haccepted, hbytes, hhashes⟩ := accepted_canonicalBytes_ne hrun
  refine ⟨haccepted, hbytes, hhashes ?_⟩
  have hpairs : (Engine.new.acceptances crypto (recovering traded)).map
      Prod.fst = [ask, bid] := by
    decide +kernel
  rw [← List.pairwise_map (f := Prod.fst) (R := fun a b : SignedOrder =>
    crypto.sha256 a.canonicalBytes = crypto.sha256 b.canonicalBytes →
      a.canonicalBytes = b.canonicalBytes), hpairs]
  decide +kernel

/-! ## One order for each byte string -/

namespace SignedOrder

/--
The market id of `b` reads on behind the one of `a`: over the trader id, the
length of the client order id and the first bytes of the client order id, and
its own length differs by a multiple of `2^16`.
-/
structure ReadsOn (a b : SignedOrder) : Prop where
  fixed : a.SameFixed b
  wraps : (utf8Bytes a.marketId.value).length % 65536 =
    (utf8Bytes b.marketId.value).length % 65536
  overlap : ∃ text,
    utf8Bytes b.marketId.value = utf8Bytes a.marketId.value ++
      (lengthPrefixed a.traderId ++
        u16BeBytes (UInt16.ofNat (utf8Bytes a.clientOrderId).length) ++ text) ∧
    utf8Bytes a.clientOrderId =
      text ++ (lengthPrefixed b.traderId ++ lengthPrefixed b.clientOrderId)

/-- The checks in front of the hash that do not need the market. -/
structure Checked (signed : SignedOrder) (nowMs : UInt64) : Prop where
  fields : signed.validateFields nowMs = .ok ()
  traderId : signed.traderId = hexEncode signed.traderPubkey.toList

variable {a b : SignedOrder} {nowMs nowMs' : UInt64}

theorem Checked.length_traderId (h : a.Checked nowMs) :
    (lengthPrefixed a.traderId).length = 66 := by
  rw [length_lengthPrefixed, h.traderId, length_utf8Bytes_hexEncode]
  simp

theorem Checked.schemaVersion_eq (ha : a.Checked nowMs)
    (hb : b.Checked nowMs') : a.schemaVersion = b.schemaVersion :=
  (validateFields_ok_iff.mp ha.fields).1.schemaVersion.trans
    (validateFields_ok_iff.mp hb.fields).1.schemaVersion.symm

theorem stringBytes_eq (signed : SignedOrder) :
    signed.stringBytes = u16BeBytes signed.schemaVersion ++
      (u16BeBytes (UInt16.ofNat (utf8Bytes signed.marketId.value).length) ++
        (utf8Bytes signed.marketId.value ++
          (lengthPrefixed signed.traderId ++
            lengthPrefixed signed.clientOrderId))) := by
  simp [stringBytes, lengthPrefixed]

theorem ReadsOn.canonicalBytes (h : a.ReadsOn b) (ha : a.Checked nowMs)
    (hb : b.Checked nowMs') : a.canonicalBytes = b.canonicalBytes := by
  obtain ⟨text, hmarket, hclient⟩ := h.overlap
  refine canonicalBytes_inj.mpr ⟨?_, h.fixed⟩
  rw [stringBytes_eq, stringBytes_eq, ha.schemaVersion_eq hb,
    u16BeBytes_ofNat_inj.mpr h.wraps, hmarket]
  have hprefixed : lengthPrefixed a.clientOrderId =
      u16BeBytes (UInt16.ofNat (utf8Bytes a.clientOrderId).length) ++
        (text ++ (lengthPrefixed b.traderId ++
          lengthPrefixed b.clientOrderId)) := by
    rw [← hclient]
    rfl
  rw [hprefixed]
  simp only [List.append_assoc]

theorem ReadsOn.marketId_ne (h : a.ReadsOn b) : a.marketId ≠ b.marketId := by
  intro hmarket
  obtain ⟨text, hoverlap, -⟩ := h.overlap
  have hlength := congrArg List.length hoverlap
  simp [hmarket, length_lengthPrefixed] at hlength

/-- Equal in every field but the signature. -/
def SameTerms (a b : SignedOrder) : Prop :=
  { a with signature := b.signature } = b

theorem SameTerms.marketId (h : a.SameTerms b) : a.marketId = b.marketId := by
  have hsame : { a with signature := b.signature } = b := h
  rw [← hsame]

/-- The longer of two market ids reads on, if they do not end alike. -/
theorem readsOn_of_longer {rest : List UInt8} (ha : a.Checked nowMs)
    (hfixed : a.SameFixed b)
    (hwraps : (utf8Bytes a.marketId.value).length % 65536 =
      (utf8Bytes b.marketId.value).length % 65536)
    (hmarket : utf8Bytes b.marketId.value =
      utf8Bytes a.marketId.value ++ rest) (hne : rest ≠ [])
    (htail : lengthPrefixed a.traderId ++ lengthPrefixed a.clientOrderId =
      rest ++ (lengthPrefixed b.traderId ++ lengthPrefixed b.clientOrderId)) :
    a.ReadsOn b := by
  have hlong : 65536 ≤ rest.length := by
    have hlength := congrArg List.length hmarket
    rw [List.length_append] at hlength
    have hpos := List.length_pos_iff.mpr hne
    omega
  have hsplit : (lengthPrefixed a.traderId ++
      u16BeBytes (UInt16.ofNat (utf8Bytes a.clientOrderId).length)) ++
        utf8Bytes a.clientOrderId =
      rest ++
        (lengthPrefixed b.traderId ++ lengthPrefixed b.clientOrderId) := by
    rw [← htail, List.append_assoc]
    rfl
  obtain ⟨text, hrest, hclient⟩ | ⟨text, hmarker, -⟩ :=
    List.append_eq_append_iff.mp hsplit
  · exact ⟨hfixed, hwraps, text, by rw [hmarket, hrest], hclient⟩
  · have hlength := congrArg List.length hmarker
    simp only [List.length_append, ha.length_traderId] at hlength
    have hmark : (u16BeBytes
      (UInt16.ofNat (utf8Bytes a.clientOrderId).length)).length = 2 := rfl
    omega

theorem SameFixed.sameTerms (hfixed : a.SameFixed b) (ha : a.Checked nowMs)
    (hb : b.Checked nowMs') (hmarket : a.marketId = b.marketId)
    (htrader : a.traderId = b.traderId)
    (hclient : a.clientOrderId = b.clientOrderId) : a.SameTerms b := by
  have hschema := ha.schemaVersion_eq hb
  obtain ⟨hside, hprice, hsize, htif, hnonce, hexpiry, hcreated, hsalt, hkey⟩ :=
    hfixed
  cases a
  cases b
  simp_all [SameTerms]

theorem canonicalBytes_cases (ha : a.Checked nowMs) (hb : b.Checked nowMs')
    (h : a.canonicalBytes = b.canonicalBytes) :
    a.SameTerms b ∨ a.ReadsOn b ∨ b.ReadsOn a := by
  obtain ⟨hstrings, hfixed⟩ := canonicalBytes_inj.mp h
  rw [stringBytes_eq, stringBytes_eq, ha.schemaVersion_eq hb,
    List.append_cancel_left_eq] at hstrings
  obtain ⟨hlengths, hstrings⟩ :=
    List.append_inj hstrings (by simp [u16BeBytes])
  have hwraps := u16BeBytes_ofNat_inj.mp hlengths
  have htrader : a.traderId = b.traderId := by
    rw [ha.traderId, hb.traderId, hfixed.traderPubkey]
  obtain ⟨rest, hmarket, htail⟩ | ⟨rest, hmarket, htail⟩ :=
    List.append_eq_append_iff.mp hstrings
  · by_cases hrest : rest = []
    · subst hrest
      rw [htrader, List.nil_append, List.append_cancel_left_eq] at htail
      have hclient := (List.append_inj htail (by simp [u16BeBytes])).2
      rw [List.append_nil, utf8Bytes_inj] at hmarket
      exact .inl (hfixed.sameTerms ha hb (congrArg MarketId.mk hmarket.symm)
        htrader (utf8Bytes_inj.mp hclient))
    · exact .inr (.inl
        (readsOn_of_longer ha hfixed hwraps hmarket hrest htail))
  · by_cases hrest : rest = []
    · subst hrest
      rw [htrader, List.nil_append, List.append_cancel_left_eq] at htail
      have hclient := (List.append_inj htail (by simp [u16BeBytes])).2
      rw [List.append_nil, utf8Bytes_inj] at hmarket
      exact .inl (hfixed.sameTerms ha hb (congrArg MarketId.mk hmarket)
        htrader (utf8Bytes_inj.mp hclient).symm)
    · exact .inr (.inr (readsOn_of_longer hb hfixed.symm hwraps.symm hmarket
        hrest htail))

/--
The canonical bytes determine two checked orders exactly if neither market id
reads on behind the other one.
-/
theorem canonicalBytes_determine_iff (ha : a.Checked nowMs)
    (hb : b.Checked nowMs') :
    (a.canonicalBytes = b.canonicalBytes → a.SameTerms b) ↔
      ¬ a.ReadsOn b ∧ ¬ b.ReadsOn a := by
  constructor
  · intro h
    refine ⟨fun hreads => ?_, fun hreads => ?_⟩
    · exact hreads.marketId_ne (h (hreads.canonicalBytes ha hb)).marketId
    · exact hreads.marketId_ne
        (h (hreads.canonicalBytes hb ha).symm).marketId.symm
  · rintro ⟨hab, hba⟩ hbytes
    rcases canonicalBytes_cases ha hb hbytes with hsame | hreads | hreads
    · exact hsame
    · exact absurd hreads hab
    · exact absurd hreads hba

theorem not_readsOn_of_short
    (hshort : (utf8Bytes b.marketId.value).length < 65536) :
    ¬ a.ReadsOn b := by
  intro h
  obtain ⟨text, hoverlap, -⟩ := h.overlap
  have hwraps := h.wraps
  have hlength := congrArg List.length hoverlap
  simp only [List.length_append, length_lengthPrefixed] at hlength
  omega

end SignedOrder

/-! ## Two orders under one signature -/

namespace Sample

open SignedOrder

def traderPrefix : String := String.ofList [Char.ofNat 0, '@']

def clientPrefix : String := String.ofList [Char.ofNat 0, Char.ofNat 5]

def filler : String := String.ofList (List.replicate 65468 'x')

def longClientAsk : SignedOrder :=
  { ask with
    clientOrderId := filler ++ (traderPrefix ++ ask.traderId ++
      (clientPrefix ++ ask.clientOrderId)) }

def longMarketAsk : SignedOrder :=
  { ask with
    marketId := ⟨ask.marketId.value ++
      (traderPrefix ++ ask.traderId ++ clientPrefix ++ filler)⟩ }

theorem length_filler : (utf8Bytes filler).length = 65468 := by
  unfold filler
  rw [length_utf8Bytes_ofList, List.length_replicate]
  intro c hc
  rw [List.eq_of_mem_replicate hc]
  decide

theorem traderPrefix_append :
    utf8Bytes (traderPrefix ++ ask.traderId) = lengthPrefixed ask.traderId := by
  decide +kernel

theorem utf8Bytes_longClientAsk :
    utf8Bytes longClientAsk.clientOrderId = utf8Bytes filler ++
      (lengthPrefixed ask.traderId ++ lengthPrefixed ask.clientOrderId) := by
  have hclient : utf8Bytes (clientPrefix ++ ask.clientOrderId) =
      lengthPrefixed ask.clientOrderId := by
    decide +kernel
  simp only [longClientAsk, utf8Bytes_append filler,
    utf8Bytes_append (traderPrefix ++ ask.traderId), traderPrefix_append,
    hclient]

theorem utf8Bytes_longMarketAsk :
    utf8Bytes longMarketAsk.marketId.value = utf8Bytes ask.marketId.value ++
      (lengthPrefixed ask.traderId ++ u16BeBytes 5 ++ utf8Bytes filler) := by
  have hclient : utf8Bytes clientPrefix = u16BeBytes 5 := by
    decide +kernel
  simp only [longMarketAsk, utf8Bytes_append, hclient, ← traderPrefix_append]

theorem longAsks_readsOn : longClientAsk.ReadsOn longMarketAsk := by
  have htrader : (lengthPrefixed ask.traderId).length = 66 := by
    decide +kernel
  have hclient : (lengthPrefixed ask.clientOrderId).length = 7 := by
    decide +kernel
  -- 65541 bytes, which the cast to `u16` takes for 5
  have hmark :
      UInt16.ofNat (utf8Bytes longClientAsk.clientOrderId).length = 5 := by
    rw [utf8Bytes_longClientAsk, List.length_append, List.length_append,
      length_filler, htrader, hclient]
    rfl
  refine ⟨⟨rfl, rfl, rfl, rfl, rfl, rfl, rfl, rfl, rfl⟩, ?_, utf8Bytes filler,
    ?_, utf8Bytes_longClientAsk⟩
  · rw [utf8Bytes_longMarketAsk]
    simp only [List.length_append, htrader, length_filler]
    rfl
  · rw [hmark]
    exact utf8Bytes_longMarketAsk

theorem ask_complete : ask.Complete := by
  constructor <;> decide

theorem ask_checked : ask.Checked 0 :=
  ⟨validateFields_ok_iff.mpr ⟨ask_complete, .inl rfl⟩, by decide +kernel⟩

theorem longClientAsk_checked : longClientAsk.Checked 0 := by
  have hclient : longClientAsk.clientOrderId ≠ "" := by
    rw [Ne, ← utf8Bytes_eq_nil, utf8Bytes_longClientAsk]
    simp [lengthPrefixed, u16BeBytes]
  obtain ⟨hschema, hmarket, htrader, -, hprice, hsize⟩ := ask_complete
  exact ⟨validateFields_ok_iff.mpr ⟨⟨hschema, hmarket, htrader,
    String.isEmpty_eq_false_iff.mpr hclient, hprice, hsize⟩, .inl rfl⟩,
    ask_checked.traderId⟩

theorem longMarketAsk_checked : longMarketAsk.Checked 0 := by
  have hmarket : longMarketAsk.marketId.value ≠ "" := by
    rw [Ne, ← utf8Bytes_eq_nil, utf8Bytes_longMarketAsk]
    simp [lengthPrefixed, u16BeBytes]
  obtain ⟨hschema, -, htrader, hclient, hprice, hsize⟩ := ask_complete
  exact ⟨validateFields_ok_iff.mpr ⟨⟨hschema,
    String.isEmpty_eq_false_iff.mpr hmarket, htrader, hclient, hprice, hsize⟩,
    .inl rfl⟩, ask_checked.traderId⟩

/-- The two orders share their canonical bytes and differ in the market. -/
theorem longAsks_share_canonicalBytes :
    longClientAsk.Checked 0 ∧ longMarketAsk.Checked 0 ∧
      longClientAsk.canonicalBytes = longMarketAsk.canonicalBytes ∧
      ¬ longClientAsk.SameTerms longMarketAsk := by
  refine ⟨longClientAsk_checked, longMarketAsk_checked,
    longAsks_readsOn.canonicalBytes longClientAsk_checked longMarketAsk_checked,
    fun hsame => longAsks_readsOn.marketId_ne hsame.marketId⟩

theorem bid_checked : bid.Checked 0 :=
  ⟨by decide, by decide +kernel⟩

theorem ask_bid_canonicalBytes :
    ask.Checked 0 ∧ bid.Checked 0 ∧
      ((ask.canonicalBytes = bid.canonicalBytes → ask.SameTerms bid) ↔
        ¬ ask.ReadsOn bid ∧ ¬ bid.ReadsOn ask) :=
  ⟨ask_checked, bid_checked,
    canonicalBytes_determine_iff ask_checked bid_checked⟩

end Sample

end ClobApi
