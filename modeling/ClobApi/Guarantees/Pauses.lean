import ClobApi.Engine.Acceptance
import ClobApi.Foundation.Until
import ClobApi.Startup

/-!
# Pauses

A paused market accepts no order until it is resumed or the server restarts.
Replay leaves the market status alone, and startup registers every market as
active.
-/

namespace ClobApi

open Foundation

/-! ## The log with the restarts marked in it -/

namespace Event

def Pauses (marketId : MarketId) (event : Event) : Prop :=
  ∃ triggeredBy, event = .marketPaused marketId triggeredBy

def Resumes (marketId : MarketId) (event : Event) : Prop :=
  ∃ triggeredBy, event = .marketResumed marketId triggeredBy

def AcceptsIn (marketId : MarketId) (event : Event) : Prop :=
  ∃ order, event = .orderAccepted order ∧ order.marketId = marketId

end Event

inductive Entry where
  | logged (se : SequencedEvent)
  | restarted

namespace Entry

def sequenced : Entry → Option SequencedEvent
  | .logged se => some se
  | .restarted => none

def Is (p : Event → Prop) : Entry → Prop
  | .logged se => p se.event
  | .restarted => False

def Reopens (marketId : MarketId) (entry : Entry) : Prop :=
  entry.Is (Event.Resumes marketId) ∨ entry = .restarted

end Entry

def ServerOp.entries (crypto : Crypto) (e : Engine) : ServerOp → List Entry
  | .call op =>
      ((e.apply crypto op).1.log.drop e.log.length).map Entry.logged
  | .restart _ => [.restarted]

def serverHistory (crypto : Crypto) : Engine → List ServerOp → List Entry :=
  emissions (fun e op => op.next crypto e) fun e op => op.entries crypto e

/-! ## What the market table knows of a pause -/

structure Guarded (e : Engine) (history : List Entry) : Prop where
  log : history.filterMap Entry.sequenced = e.log
  held : ∀ marketId, HeldOff (Entry.Is (Event.Pauses marketId))
    (Entry.Is (Event.AcceptsIn marketId)) (Entry.Reopens marketId) history
  halted : ∀ marketId,
    Pending (Entry.Is (Event.Pauses marketId)) (Entry.Reopens marketId)
      history →
    ∃ market, e.markets.get? marketId.value = some market ∧
      market.isActive = false

section Guarded

variable {wall : Nat → UInt64} {e e' : Engine} {history : List Entry}

theorem filterMap_sequenced_logged (events : List SequencedEvent) :
    (events.map Entry.logged).filterMap Entry.sequenced = events := by
  rw [List.filterMap_map]
  exact List.filterMap_some

theorem Guarded.neutral {events : List Event} (h : Guarded e history)
    (hwrites : Writes wall e e' events) (hmarkets : e'.markets = e.markets)
    (hneutral : ∀ event ∈ events, ∀ marketId,
      ¬ event.Pauses marketId ∧ ¬ event.AcceptsIn marketId) :
    Guarded e' (history ++
      (numbered wall e.sequencer.nextSeqId events).map Entry.logged) := by
  have hentries : ∀ marketId, ∀ entry ∈
      (numbered wall e.sequencer.nextSeqId events).map Entry.logged,
      ¬ entry.Is (Event.Pauses marketId) ∧
        ¬ entry.Is (Event.AcceptsIn marketId) := by
    intro marketId entry hentry
    obtain ⟨se, hse, rfl⟩ := List.mem_map.mp hentry
    exact hneutral _ (mem_numbered hse).1 marketId
  have hkept := fun marketId =>
    (h.held marketId).append_neutral (hentries marketId)
  refine ⟨?_, fun marketId => (hkept marketId).1, fun marketId hpending => ?_⟩
  · rw [List.filterMap_append, filterMap_sequenced_logged, h.log, hwrites.log]
  · rw [hmarkets]
    exact h.halted marketId ((hkept marketId).2 hpending)

theorem Guarded.accept {order : Order} {seqId : Nat} {timestampMs : UInt64}
    (h : Guarded e history)
    (hactive : ∃ market, e.markets.get? order.marketId.value = some market ∧
      market.isActive = true)
    (hlog : e'.log = e.log ++ [⟨seqId, timestampMs, .orderAccepted order⟩])
    (hmarkets : e'.markets = e.markets) :
    Guarded e' (history ++
      [.logged ⟨seqId, timestampMs, .orderAccepted order⟩]) := by
  refine ⟨?_, fun marketId => heldOff_append.mpr ⟨h.held marketId, ?_⟩,
    fun marketId hpending => ?_⟩
  · rw [List.filterMap_append, h.log, hlog]
    rfl
  · rintro ⟨accepted, haccepted, rfl⟩ hpending
    cases haccepted
    obtain ⟨market, hmarket, hactive⟩ := hactive
    obtain ⟨market', hmarket', hhalted⟩ := h.halted _ hpending
    obtain rfl := Option.some.inj (hmarket.symm.trans hmarket')
    rw [hactive] at hhalted
    cases hhalted
  · rw [hmarkets]
    refine h.halted marketId ((pending_append.mp hpending).resolve_left ?_).1
    rintro ⟨triggeredBy, hevent⟩
    cases hevent

theorem Guarded.restarted (h : Guarded e history) (hlog : e'.log = e.log) :
    Guarded e' (history ++ [.restarted]) := by
  refine ⟨?_, fun marketId => heldOff_append.mpr ⟨h.held marketId, nofun⟩,
    fun marketId hpending => ?_⟩
  · rw [List.filterMap_append, h.log, hlog]
    simp [Entry.sequenced]
  · obtain hpauses | ⟨-, hopen⟩ := pending_append.mp hpending
    · exact hpauses.elim
    · exact absurd (.inr rfl) hopen

theorem switchMarket_status (e : Engine) (marketId : String)
    (source target : MarketStatus) (event : Event) (wall : Nat → UInt64) :
    (e.switchMarket marketId source target event wall).1 = e ∨
      ∃ market : MarketConfig,
        (e.switchMarket marketId source target event wall).1.log =
          e.log ++ [⟨e.sequencer.nextSeqId, wall e.sequencer.nextSeqId,
            event⟩] ∧
        (e.switchMarket marketId source target event wall).1.markets =
          e.markets.insert marketId { market with status := target } := by
  obtain ⟨error, hrefused⟩ | ⟨market, hfind, htarget, hsource⟩ :=
    Engine.switchMarket_cases e marketId source target event wall
  · rw [hrefused]
    exact .inl rfl
  · rw [Engine.switchMarket_eq hfind htarget hsource]
    refine .inr ⟨market, rfl, ?_⟩
    rw [← Engine.findMarket_id hfind]
    rfl

theorem Guarded.switch {marketId : String} {source target : MarketStatus}
    {event : Event} (h : Guarded e history)
    (haccepts : ∀ marketId', ¬ event.AcceptsIn marketId')
    (hpauses : ∀ marketId', event.Pauses marketId' →
      marketId'.value = marketId ∧ target ≠ .active)
    (hresumes : target = .active → event.Resumes ⟨marketId⟩) :
    Guarded (e.switchMarket marketId source target event wall).1 (history ++
      ((e.switchMarket marketId source target event wall).1.log.drop
        e.log.length).map Entry.logged) := by
  obtain hsame | ⟨market, hlog, hmarkets⟩ :=
    switchMarket_status e marketId source target event wall
  · rw [hsame]
    simpa using h
  rw [hlog, List.drop_left, List.map_singleton]
  refine ⟨?_, fun marketId' => heldOff_append.mpr
    ⟨h.held marketId', fun hbars => absurd hbars (haccepts marketId')⟩,
    fun marketId' hpending => ?_⟩
  · rw [List.filterMap_append, h.log, hlog]
    rfl
  · rw [hmarkets, HashMap.get?_insert]
    obtain hpausing | ⟨hpending, hclosed⟩ := pending_append.mp hpending
    · obtain ⟨hid, hstatus⟩ := hpauses marketId' hpausing
      exact ⟨_, if_pos hid, by simpa [MarketConfig.isActive] using hstatus⟩
    · split
      · next hid =>
          refine ⟨_, rfl, ?_⟩
          by_contra hactive
          refine hclosed (.inl ?_)
          rw [← hid] at hresumes
          exact hresumes (by simpa [MarketConfig.isActive] using hactive)
      · exact h.halted marketId' hpending

end Guarded

/-! ## Every step -/

section Runs

variable {crypto : Crypto} {e : Engine} {history : List Entry}

theorem cancels_neutral {event : Event}
    (h : ∃ id hash reason, event = .orderCancelled id hash reason)
    (marketId : MarketId) :
    ¬ event.Pauses marketId ∧ ¬ event.AcceptsIn marketId := by
  obtain ⟨id, hash, reason, rfl⟩ := h
  simp [Event.Pauses, Event.AcceptsIn]

theorem events_neutral (st : MatchState) :
    ∀ event ∈ st.events, ∀ marketId,
      ¬ event.Pauses marketId ∧ ¬ event.AcceptsIn marketId := by
  intro event hevent marketId
  obtain ⟨fill, -, rfl⟩ | hcancel := MatchState.mem_events hevent
  · simp [Event.Pauses, Event.AcceptsIn]
  · exact cancels_neutral ⟨_, _, _, hcancel⟩ marketId

theorem Writes.log_drop {wall : Nat → UInt64} {e e' : Engine}
    {events : List Event} (h : Writes wall e e' events) :
    e'.log.drop e.log.length =
      numbered wall e.sequencer.nextSeqId events := by
  rw [h.log, List.drop_left]

theorem Guarded.submit {signed : SignedOrder} {env : CallEnv}
    (h : Guarded e history) :
    Guarded (e.processOrder crypto signed env).1 (history ++
      ((e.processOrder crypto signed env).1.log.drop e.log.length).map
        Entry.logged) := by
  by_cases hsubmits : Engine.Submits crypto e signed env
  · obtain ⟨market, hmarket, hactive, -⟩ :=
      (Engine.checkIntake_ok_iff.mp hsubmits.intake).trades
    have haccepted : Guarded (e.afterAccept crypto signed env) (history ++
        [.logged ⟨e.sequencer.nextSeqId, env.wall e.sequencer.nextSeqId,
          .orderAccepted (Engine.buildOrder crypto signed env
            e.sequencer.peekNextSeqId)⟩]) :=
      h.accept ⟨market, hmarket, hactive⟩ rfl rfl
    cases hbook : e.books.get? signed.marketId.value with
    | none =>
        rw [hsubmits.panics hbook, afterAccept_writes.log_drop]
        exact haccepted
    | some book =>
        obtain ⟨e', hdone, hexecuted⟩ := hsubmits.completes hbook rfl rfl
        rw [hdone, hexecuted.writes.log_drop]
        have hlater := haccepted.neutral hexecuted.later
          hexecuted.tables.markets (events_neutral _)
        rw [List.append_assoc] at hlater
        exact hlater
  · rw [(Engine.processOrder_rejects hsubmits).1]
    simpa using h

theorem Guarded.step {op : ServerOp} (h : Guarded e history)
    (hadmitted : op.Admitted e) :
    Guarded (op.next crypto e) (history ++ op.entries crypto e) := by
  cases op with
  | restart shuffle =>
      have hrestarted := h.restarted (restart_log shuffle e.log hadmitted)
      exact hrestarted
  | call op =>
      obtain ⟨-, hserved⟩ := hadmitted
      cases op with
      | processOrder signed env => exact h.submit
      | processCancel orderId traderId wall =>
          obtain hsame | ⟨hash, hwrites⟩ :=
            processCancel_writes e orderId traderId wall
          · simpa [ServerOp.next, ServerOp.entries, Engine.apply, hsame] using h
          · have hkept := h.neutral hwrites
              (processCancel_tables e orderId traderId wall).markets
              fun event hevent => cancels_neutral
                ⟨_, _, _, List.mem_singleton.mp hevent⟩
            rw [← hwrites.log_drop] at hkept
            exact hkept
      | pauseMarket marketId triggeredBy wall =>
          refine h.switch (by simp [Event.AcceptsIn]) ?_ (by simp)
          rintro marketId' ⟨_, hevent⟩
          cases hevent
          exact ⟨rfl, by simp⟩
      | resumeMarket marketId triggeredBy wall =>
          refine h.switch (by simp [Event.AcceptsIn]) ?_ fun _ => ⟨_, rfl⟩
          rintro marketId' ⟨_, hevent⟩
          cases hevent
      | cancelAllOrders marketId wall =>
          obtain ⟨targets, hwrites⟩ := cancelAllOrders_writes e marketId wall
          have hkept := h.neutral hwrites
            (cancelAllOrders_tables e marketId wall).markets
            fun event hevent => by
              obtain ⟨target, -, rfl⟩ := List.mem_map.mp hevent
              exact cancels_neutral ⟨_, _, _, rfl⟩
          rw [← hwrites.log_drop] at hkept
          exact hkept
      | addMarket => cases hserved
      | restoreFromEvents => cases hserved

theorem ServerStep.run_guarded {ops : List ServerOp}
    (h : Run (ServerStep crypto) startupEngine ops e) :
    Guarded e (serverHistory crypto startupEngine ops) := by
  induction h with
  | start =>
      exact ⟨rfl, fun _ => heldOff_nil, fun _ h => absurd h not_pending_nil⟩
  | @next ops e op e' hrun hstep ih =>
      obtain ⟨hadmitted, rfl⟩ := hstep
      rw [serverHistory, emissions_append, hrun.foldl_next fun _ _ _ h => h.2]
      exact ih.step hadmitted

/--
After a pause of a market the log accepts no order in it before the market is
resumed or the server restarts.
-/
theorem pause_holds_until_reopened {ops : List ServerOp}
    (h : Run (ServerStep crypto) startupEngine ops e) :
    (serverHistory crypto startupEngine ops).filterMap Entry.sequenced =
        e.log ∧
      ∀ marketId, HeldOff (Entry.Is (Event.Pauses marketId))
        (Entry.Is (Event.AcceptsIn marketId)) (Entry.Reopens marketId)
        (serverHistory crypto startupEngine ops) :=
  ⟨(ServerStep.run_guarded h).log, (ServerStep.run_guarded h).held⟩

end Runs

/-! ## A pause and a restart -/

namespace Sample

def usdcAskHash : Bytes32 :=
  #v[180, 63, 238, 34, 51, 56, 37, 21, 61, 215, 130, 157, 226, 93, 119, 8, 14,
    7, 57, 131, 41, 209, 196, 237, 136, 95, 82, 17, 174, 105, 13, 170]

def usdcAsk : SignedOrder :=
  { ask with
    clientOrderId := "usdc-1"
    marketId := btcUsdc.id
    priceTicks := 100000
    salt := 11
    signature :=
      #v[29, 217, 10, 137, 180, 11, 82, 127, 162, 230, 109, 154, 247, 31, 50,
        182, 241, 232, 48, 251, 99, 90, 79, 196, 209, 139, 146, 138, 150, 154,
        109, 181, 167, 230, 186, 220, 113, 8, 203, 144, 19, 71, 118, 249, 121,
        146, 41, 57, 116, 103, 40, 131, 131, 99, 4, 196, 210, 186, 241, 235, 18,
        32, 227, 14] }

def laterAskHash : Bytes32 :=
  #v[207, 66, 208, 72, 63, 45, 157, 36, 128, 239, 204, 197, 143, 177, 222, 243,
    85, 191, 240, 152, 154, 150, 249, 45, 219, 185, 239, 66, 17, 29, 88, 136]

def laterAsk : SignedOrder :=
  { usdcAsk with
    clientOrderId := "usdc-2"
    priceTicks := 101000
    nonce := 2
    salt := 12
    signature :=
      #v[205, 104, 184, 72, 232, 79, 244, 226, 156, 132, 15, 235, 47, 128, 187,
        2, 180, 77, 14, 203, 47, 123, 130, 7, 3, 76, 42, 16, 180, 232, 191, 159,
        93, 43, 106, 71, 98, 15, 89, 148, 100, 203, 63, 219, 148, 90, 88, 116,
        107, 96, 137, 179, 209, 196, 151, 83, 154, 49, 64, 39, 81, 6, 5, 9] }

def usdcCrypto : Crypto where
  sha256 := fun bytes =>
    if bytes = usdcAsk.canonicalBytes then usdcAskHash
    else if bytes = laterAsk.canonicalBytes then laterAskHash
    else .replicate 32 0
  validPublicKey := fun key => key = askPubkey
  verify := fun key message signature =>
    (key, message, signature) = (askPubkey, usdcAskHash, usdcAsk.signature) ∨
      (key, message, signature) = (askPubkey, laterAskHash, laterAsk.signature)

def laterEnv : CallEnv := ⟨2000, ⟨"later"⟩, wall⟩

def paused : List ServerOp :=
  [.call (.processOrder usdcAsk askEnv),
    .call (.pauseMarket "BTC-USDC" "operator" wall)]

/-- The market is paused, and the server restarts before the next order. -/
def reopened : List ServerOp :=
  paused ++ [.restart .id, .call (.processOrder laterAsk laterEnv)]

def served (ops : List ServerOp) : Engine :=
  ops.foldl (fun e op => op.next usdcCrypto e) startupEngine

theorem paused_log : (served paused).log =
    [⟨1, 2000, .orderAccepted (Engine.buildOrder usdcCrypto usdcAsk askEnv 1)⟩,
      ⟨2, 2000, .marketPaused btcUsdc.id "operator"⟩] := by
  decide +kernel

theorem reopened_log : (served reopened).log = (served paused).log ++
    [⟨3, 2000,
      .orderAccepted (Engine.buildOrder usdcCrypto laterAsk laterEnv 3)⟩] := by
  decide +kernel

theorem paused_run :
    Run (ServerStep usdcCrypto) startupEngine paused (served paused) := by
  have hfirst : startupEngine.Admits (.processOrder usdcAsk askEnv) := nofun
  exact .next (.next .start ⟨⟨hfirst, rfl⟩, rfl⟩) ⟨⟨trivial, rfl⟩, rfl⟩

theorem restarted_log :
    (served (paused ++ [.restart .id])).log = (served paused).log := by
  unfold served
  rw [List.foldl_append]
  exact restart_log .id _ (ServerStep.run_restarts paused_run .id)

theorem reopened_run :
    Run (ServerStep usdcCrypto) startupEngine reopened (served reopened) := by
  have hrestarts := ServerStep.run_restarts paused_run .id
  have hfresh : (served (paused ++ [.restart .id])).Admits
      (.processOrder laterAsk laterEnv) := by
    unfold Engine.Admits
    rw [restarted_log, paused_log]
    decide
  exact .next (.next paused_run ⟨hrestarts, rfl⟩) ⟨⟨hfresh, rfl⟩, rfl⟩

theorem pause_holds_until_reopened_paused :
    (serverHistory usdcCrypto startupEngine reopened).filterMap
        Entry.sequenced = (served reopened).log ∧
      HeldOff (Entry.Is (Event.Pauses btcUsdc.id))
        (Entry.Is (Event.AcceptsIn btcUsdc.id)) (Entry.Reopens btcUsdc.id)
        (serverHistory usdcCrypto startupEngine reopened) :=
  ⟨(pause_holds_until_reopened reopened_run).1,
    (pause_holds_until_reopened reopened_run).2 btcUsdc.id⟩

/-- A restart lets the next order into a market that was never resumed. -/
theorem restart_reopens :
    Run (ServerStep usdcCrypto) startupEngine reopened (served reopened) ∧
      ¬ HeldOff (fun se => se.event.Pauses btcUsdc.id)
        (fun se => se.event.AcceptsIn btcUsdc.id)
        (fun se => se.event.Resumes btcUsdc.id) (served reopened).log := by
  refine ⟨reopened_run, fun hheld => ?_⟩
  have hlog : (served reopened).log =
      [⟨1, 2000,
        .orderAccepted (Engine.buildOrder usdcCrypto usdcAsk askEnv 1)⟩] ++
      ⟨2, 2000, .marketPaused btcUsdc.id "operator"⟩ :: ([] ++
      [⟨3, 2000,
        .orderAccepted (Engine.buildOrder usdcCrypto laterAsk laterEnv 3)⟩]) :=
    reopened_log.trans (by rw [paused_log]; rfl)
  obtain ⟨se, hmem, -⟩ := hheld _ _ _ _ _ hlog ⟨_, rfl⟩ ⟨_, rfl, rfl⟩
  cases hmem

end Sample

end ClobApi
