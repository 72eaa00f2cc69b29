import ClobApi.Db
import ClobApi.Domain.CanonicalBytes
import ClobApi.Foundation.Records

/-!
# What the state checksum tells apart

The checksum covers three sections of records, and nothing in front of a section
says how many records it has.  Two stores with the same bytes agree, or one has
records where the other has those of a later section, or a trader id is too long
for the two bytes of its length.
-/

namespace ClobApi

open Foundation

/-! ## Records -/

def filledRecord (entry : Bytes32 × UInt64) : List UInt8 :=
  entry.1.toList ++ u64BeBytes entry.2

def cancelledRecord (entry : Bytes32 × Bool) : List UInt8 :=
  entry.1.toList ++ [entry.2.toUInt8]

def nonceRecord (entry : String × UInt64) : List UInt8 :=
  lengthPrefixed entry.1 ++ u64BeBytes entry.2

theorem filledRecord_prefixFree : PrefixFree filledRecord := by
  rintro ⟨hash, qty⟩ ⟨hash', qty'⟩ rest rest' h
  simp only [filledRecord, List.append_assoc] at h
  obtain ⟨hhash, hrest⟩ := List.append_inj h (by simp)
  obtain ⟨rfl, rfl⟩ := u64BeBytes_append_inj.mp hrest
  exact ⟨Prod.ext (Vector.toList_inj.mp hhash) rfl, rfl⟩

theorem cancelledRecord_prefixFree : PrefixFree cancelledRecord := by
  rintro ⟨hash, flag⟩ ⟨hash', flag'⟩ rest rest' h
  simp only [cancelledRecord, List.append_assoc, List.cons_append,
    List.nil_append] at h
  obtain ⟨hhash, hrest⟩ := List.append_inj h (by simp)
  obtain ⟨hflag, rfl⟩ := List.cons.inj hrest
  have hflag' : flag = flag' := by
    revert hflag
    cases flag <;> cases flag' <;> decide
  exact ⟨Prod.ext (Vector.toList_inj.mp hhash) hflag', rfl⟩

theorem nonceRecord_ne_nil (entry : String × UInt64) :
    nonceRecord entry ≠ [] := by
  simp [nonceRecord, lengthPrefixed, u16BeBytes]

theorem length_filledRecord (entry : Bytes32 × UInt64) :
    (filledRecord entry).length = 40 := by
  simp [filledRecord]

theorem length_cancelledRecord (entry : Bytes32 × Bool) :
    (cancelledRecord entry).length = 33 := by
  simp [cancelledRecord]

theorem length_nonceRecord (entry : String × UInt64) :
    (nonceRecord entry).length = 10 + (utf8Bytes entry.1).length := by
  simp [nonceRecord, length_lengthPrefixed]
  omega

/--
Different nonce records start the same text only if one id is the longer by a
multiple of `2^16` and starts with the other id and its nonce.
-/
theorem nonceRecord_append {traderId traderId' : String}
    {nonce nonce' : UInt64} {rest rest' : List UInt8}
    (h : nonceRecord (traderId, nonce) ++ rest =
      nonceRecord (traderId', nonce') ++ rest')
    (hne : (traderId, nonce) ≠ (traderId', nonce'))
    (hle : (utf8Bytes traderId).length ≤ (utf8Bytes traderId').length) :
    (utf8Bytes traderId).length % 65536 =
        (utf8Bytes traderId').length % 65536 ∧
      (utf8Bytes traderId).length < (utf8Bytes traderId').length ∧
      utf8Bytes traderId ++ u64BeBytes nonce <+: utf8Bytes traderId' := by
  simp only [nonceRecord, lengthPrefixed, List.append_assoc] at h
  obtain ⟨hlength, hrest⟩ := List.append_inj h (by simp [u16BeBytes])
  have hwraps := u16BeBytes_ofNat_inj.mp hlength
  have hlt : (utf8Bytes traderId).length < (utf8Bytes traderId').length := by
    refine lt_of_le_of_ne hle fun hsame => hne ?_
    obtain ⟨htrader, hrest⟩ := List.append_inj hrest hsame
    obtain ⟨hnonce, -⟩ := u64BeBytes_append_inj.mp hrest
    exact Prod.ext (utf8Bytes_inj.mp htrader) hnonce
  refine ⟨hwraps, hlt, ?_⟩
  have hprefix : utf8Bytes traderId ++ u64BeBytes nonce <+:
      utf8Bytes traderId ++ (u64BeBytes nonce ++ rest) :=
    ⟨rest, List.append_assoc _ _ _⟩
  rw [hrest] at hprefix
  refine List.prefix_of_prefix_length_le hprefix (List.prefix_append _ _) ?_
  rw [List.length_append, length_u64BeBytes]
  omega

/-! ## Stores that can be confused -/

namespace StateStore

theorem checksumBytes_eq (state : StateStore) :
    state.checksumBytes =
      (sortByHash state.filledAmounts).flatMap filledRecord ++
        ((sortByHash state.cancelled).flatMap cancelledRecord ++
          (sortByTrader state.nonces).flatMap nonceRecord) :=
  List.append_assoc _ _ _

/-- The bytes of all records of the store. -/
def recordBytes (state : StateStore) : Nat :=
  40 * state.filledAmounts.bindings.length +
    33 * state.cancelled.bindings.length +
    (state.nonces.bindings.map fun entry =>
      10 + (utf8Bytes entry.1).length).sum

theorem length_checksumBytes (state : StateStore) :
    state.checksumBytes.length = state.recordBytes := by
  have hnonces : ((sortByTrader state.nonces).map fun entry =>
      10 + (utf8Bytes entry.1).length).sum =
      (state.nonces.bindings.map fun entry =>
        10 + (utf8Bytes entry.1).length).sum :=
    ((List.perm_insertionSort _ _).map _).sum_nat
  rw [recordBytes, ← hnonces, checksumBytes_eq, List.length_append,
    List.length_append, length_section length_filledRecord,
    length_section length_cancelledRecord, length_sortByHash,
    length_sortByHash, List.length_flatMap]
  simp only [length_nonceRecord, Nat.add_assoc]

/-- One of the two starts with the other. -/
def StartsAlike (bytes bytes' : List UInt8) : Prop :=
  bytes <+: bytes' ∨ bytes' <+: bytes

/--
Behind what `a` and `b` have in common, a record of `a` stands where `b` has one
that starts like it.
-/
inductive ReadsAs (a b : StateStore) : Prop
  /-- A cancellation of `a` and a further filled amount of `b`. -/
  | cancelledAsFilled {hash : Bytes32} {qty : UInt64} {flag : Bool}
      {after : List (Bytes32 × UInt64)} {after' : List (Bytes32 × Bool)}
      (filledAmounts : sortByHash b.filledAmounts =
        sortByHash a.filledAmounts ++ (hash, qty) :: after)
      (cancelled : sortByHash a.cancelled = (hash, flag) :: after')
      (topByte : (qty >>> 56).toUInt8 = flag.toUInt8)
  /-- A nonce of `a` and a further filled amount of `b`. -/
  | nonceAsFilled {hash : Bytes32} {qty : UInt64} {traderId : String}
      {nonce : UInt64} {after : List (Bytes32 × UInt64)}
      {after' : List (String × UInt64)}
      (filledAmounts : sortByHash b.filledAmounts =
        sortByHash a.filledAmounts ++ (hash, qty) :: after)
      (cancelled : sortByHash a.cancelled = [])
      (nonces : sortByTrader a.nonces = (traderId, nonce) :: after')
      (startsAlike : StartsAlike (hash.toList ++ u64BeBytes qty)
        (lengthPrefixed traderId ++ u64BeBytes nonce))
  /-- A nonce of `a` and a further cancellation of `b`. -/
  | nonceAsCancelled {hash : Bytes32} {flag : Bool} {traderId : String}
      {nonce : UInt64} {after : List (Bytes32 × Bool)}
      {after' : List (String × UInt64)}
      (filledAmounts : sortByHash a.filledAmounts = sortByHash b.filledAmounts)
      (cancelled : sortByHash b.cancelled =
        sortByHash a.cancelled ++ (hash, flag) :: after)
      (nonces : sortByTrader a.nonces = (traderId, nonce) :: after')
      (startsAlike : StartsAlike (hash.toList ++ [flag.toUInt8])
        (lengthPrefixed traderId ++ u64BeBytes nonce))
  /-- The longer id of `b` takes in the nonce of `a`; its length wraps. -/
  | longId {traderId traderId' : String} {nonce nonce' : UInt64}
      {common after after' : List (String × UInt64)}
      (filledAmounts : sortByHash a.filledAmounts = sortByHash b.filledAmounts)
      (cancelled : sortByHash a.cancelled = sortByHash b.cancelled)
      (nonces : sortByTrader a.nonces = common ++ (traderId, nonce) :: after)
      (nonces' : sortByTrader b.nonces =
        common ++ (traderId', nonce') :: after')
      (wraps : (utf8Bytes traderId).length % 65536 =
        (utf8Bytes traderId').length % 65536)
      (longer : (utf8Bytes traderId).length < (utf8Bytes traderId').length)
      (startsWith :
        utf8Bytes traderId ++ u64BeBytes nonce <+: utf8Bytes traderId')

structure Confusable (a b : StateStore) : Prop where
  size : a.recordBytes = b.recordBytes
  reads : a.ReadsAs b ∨ b.ReadsAs a

variable {a b : StateStore}

theorem startsAlike_of_append {bytes bytes' rest rest' : List UInt8}
    (h : bytes' ++ rest' = bytes ++ rest) : StartsAlike bytes bytes' :=
  List.prefix_or_prefix_of_prefix (List.prefix_append _ rest)
    (h ▸ List.prefix_append _ rest')

theorem readsAs_of_filledAmounts {rest : List UInt8}
    (h : Overruns filledRecord (sortByHash a.filledAmounts)
      (sortByHash b.filledAmounts)
      ((sortByHash a.cancelled).flatMap cancelledRecord ++
        (sortByTrader a.nonces).flatMap nonceRecord) rest) :
    a.ReadsAs b := by
  obtain ⟨extra, hne, hfilled, htext⟩ := h
  obtain ⟨⟨hash, qty⟩, after, rfl⟩ := List.exists_cons_of_ne_nil hne
  simp only [List.flatMap_cons, filledRecord, List.append_assoc] at htext
  cases hcancelled : sortByHash a.cancelled with
  | cons entry after' =>
      obtain ⟨hash', flag⟩ := entry
      simp only [hcancelled, List.flatMap_cons, cancelledRecord,
        List.append_assoc] at htext
      obtain ⟨hhash, hbytes⟩ := List.append_inj htext (by simp)
      obtain rfl := Vector.toList_inj.mp hhash
      exact .cancelledAsFilled hfilled hcancelled
        (List.cons.inj hbytes).1.symm
  | nil =>
      rw [hcancelled, List.flatMap_nil, List.nil_append] at htext
      cases hnonces : sortByTrader a.nonces with
      | cons entry after' =>
          obtain ⟨traderId, nonce⟩ := entry
          rw [hnonces, List.flatMap_cons, ← List.append_assoc] at htext
          exact .nonceAsFilled hfilled hcancelled hnonces
            (startsAlike_of_append htext)
      | nil =>
          have hlength := congrArg List.length htext
          simp [hnonces] at hlength
          omega

theorem readsAs_of_cancelled {rest : List UInt8}
    (hfilled : sortByHash a.filledAmounts = sortByHash b.filledAmounts)
    (h : Overruns cancelledRecord (sortByHash a.cancelled)
      (sortByHash b.cancelled) ((sortByTrader a.nonces).flatMap nonceRecord)
      rest) :
    a.ReadsAs b := by
  obtain ⟨extra, hne, hcancelled, htext⟩ := h
  obtain ⟨⟨hash, flag⟩, after, rfl⟩ := List.exists_cons_of_ne_nil hne
  rw [List.flatMap_cons, List.append_assoc] at htext
  cases hnonces : sortByTrader a.nonces with
  | cons entry after' =>
      obtain ⟨traderId, nonce⟩ := entry
      rw [hnonces, List.flatMap_cons] at htext
      exact .nonceAsCancelled hfilled hcancelled hnonces
        (startsAlike_of_append htext)
  | nil =>
      have hlength := congrArg List.length htext
      simp [hnonces, cancelledRecord] at hlength

theorem readsAs_of_nonces
    (hfilled : sortByHash a.filledAmounts = sortByHash b.filledAmounts)
    (hcancelled : sortByHash a.cancelled = sortByHash b.cancelled)
    (h : Parts nonceRecord (sortByTrader a.nonces) (sortByTrader b.nonces)) :
    a.ReadsAs b ∨ b.ReadsAs a := by
  obtain ⟨common, ⟨traderId, nonce⟩, ⟨traderId', nonce'⟩, after, after',
    hnonces, hnonces', hne, htext⟩ := h
  simp only [List.flatMap_cons] at htext
  rcases le_total (utf8Bytes traderId).length (utf8Bytes traderId').length with
    hle | hle
  · obtain ⟨hwraps, hlt, hstarts⟩ := nonceRecord_append htext hne hle
    exact .inl
      (.longId hfilled hcancelled hnonces hnonces' hwraps hlt hstarts)
  · obtain ⟨hwraps, hlt, hstarts⟩ :=
      nonceRecord_append htext.symm hne.symm hle
    exact .inr (.longId hfilled.symm hcancelled.symm hnonces' hnonces hwraps
      hlt hstarts)

/-- Stores with the same bytes agree or can be confused. -/
theorem checksumBytes_cases (h : a.checksumBytes = b.checksumBytes) :
    a.Agrees b ∨ a.Confusable b := by
  have hsize : a.recordBytes = b.recordBytes := by
    rw [← length_checksumBytes, ← length_checksumBytes, h]
  rw [checksumBytes_eq, checksumBytes_eq,
    filledRecord_prefixFree.append_eq_iff] at h
  rcases h with ⟨hfilled, hrest⟩ | hover | hover
  · rcases cancelledRecord_prefixFree.append_eq_iff.mp hrest with
      ⟨hcancelled, hnonces⟩ | hover | hover
    · rcases (flatMap_eq_iff_parts nonceRecord_ne_nil).mp hnonces with
        hnonces | hparts
      · exact .inl (agrees_iff_sorted.mpr ⟨hfilled, hcancelled, hnonces⟩)
      · exact .inr ⟨hsize, readsAs_of_nonces hfilled hcancelled hparts⟩
    · exact .inr ⟨hsize, .inl (readsAs_of_cancelled hfilled hover)⟩
    · exact .inr ⟨hsize, .inr (readsAs_of_cancelled hfilled.symm hover)⟩
  · exact .inr ⟨hsize, .inl (readsAs_of_filledAmounts hover)⟩
  · exact .inr ⟨hsize, .inr (readsAs_of_filledAmounts hover)⟩

theorem Agrees.checksumBytes (h : a.Agrees b) :
    a.checksumBytes = b.checksumBytes := by
  obtain ⟨hfilled, hcancelled, hnonces⟩ := agrees_iff_sorted.mp h
  rw [checksumBytes_eq, checksumBytes_eq, hfilled, hcancelled, hnonces]

/-- The bytes identify stores that cannot be confused. -/
theorem checksumBytes_identifies (h : ¬ a.Confusable b) :
    a.checksumBytes = b.checksumBytes ↔ a.Agrees b :=
  ⟨fun hbytes => (checksumBytes_cases hbytes).resolve_right h,
    Agrees.checksumBytes⟩

def ShortIds (state : StateStore) : Prop :=
  ∀ traderId nonce, state.nonces.get? traderId = some nonce →
    (utf8Bytes traderId).length < 65536

theorem Agrees.shortIds (h : a.Agrees b) (hb : b.ShortIds) : a.ShortIds :=
  fun traderId nonce hnonce =>
    hb traderId nonce ((h.nonces traderId).symm.trans hnonce)

theorem not_readsAs
    (hfilled : a.filledAmounts.bindings.length =
      b.filledAmounts.bindings.length)
    (hcancelled : a.cancelled.bindings.length = b.cancelled.bindings.length)
    (ha : a.ShortIds) (hb : b.ShortIds) : ¬ a.ReadsAs b := by
  have hlonger : ∀ {α : Type} {l l' after : List α} {entry : α},
      l' = l ++ entry :: after → l.length ≠ l'.length := by
    rintro α l l' after entry rfl hsame
    simp at hsame
  rw [← length_sortByHash, ← length_sortByHash] at hfilled hcancelled
  rintro (⟨hmore, -, -⟩ | ⟨hmore, -, -, -⟩ | ⟨-, hmore, -, -⟩ |
    ⟨-, -, hnonces, hnonces', hwraps, hlt, -⟩)
  · exact hlonger hmore hfilled
  · exact hlonger hmore hfilled
  · exact hlonger hmore hcancelled
  · have hshort := ha _ _ (mem_sortByTrader.mp
      (hnonces ▸ List.mem_append_right _ List.mem_cons_self))
    have hshort' := hb _ _ (mem_sortByTrader.mp
      (hnonces' ▸ List.mem_append_right _ List.mem_cons_self))
    rw [Nat.mod_eq_of_lt hshort, Nat.mod_eq_of_lt hshort'] at hwraps
    exact hlt.ne hwraps

/-- Stores of one size whose trader ids fit their length are told apart. -/
theorem not_confusable
    (hfilled : a.filledAmounts.bindings.length =
      b.filledAmounts.bindings.length)
    (hcancelled : a.cancelled.bindings.length = b.cancelled.bindings.length)
    (ha : a.ShortIds) (hb : b.ShortIds) : ¬ a.Confusable b := by
  rintro ⟨-, hreads | hreads⟩
  · exact not_readsAs hfilled hcancelled ha hb hreads
  · exact not_readsAs hfilled.symm hcancelled.symm hb ha hreads

/-! ## A fill that reads as a nonce -/

/-- A hash that starts with the length of the rest of it. -/
def readableHash : Bytes32 := ⟨#[0, 30] ++ .replicate 30 97, by decide⟩

def oneFill : StateStore := StateStore.new.applyFill readableHash readableHash 3

def oneTrader : String := "aaaaaaaaaaaaaaaaaaaaaaaaaaaaaa"

def nonceUsed (nonce : UInt64) : StateStore :=
  { StateStore.new with nonces := HashMap.empty.insert oneTrader nonce }

example : StateStore.new.checkAndUpdateNonce oneTrader 6 = .ok (nonceUsed 6) :=
  rfl

theorem nonceUsed_shortIds (nonce : UInt64) : (nonceUsed nonce).ShortIds := by
  intro traderId nonce' h
  simp only [nonceUsed, HashMap.get?_insert] at h
  split at h
  · next htrader =>
      subst htrader
      decide +kernel
  · cases h

theorem nonceUsed_identified :
    (nonceUsed 6).checksumBytes = (nonceUsed 7).checksumBytes ↔
      (nonceUsed 6).Agrees (nonceUsed 7) :=
  checksumBytes_identifies (not_confusable rfl rfl (nonceUsed_shortIds 6)
    (nonceUsed_shortIds 7))

theorem checksumBytes_confuses :
    ¬ ∀ a b : StateStore, a.checksumBytes = b.checksumBytes ↔ a.Agrees b := by
  intro h
  have hsame : oneFill.checksumBytes = (nonceUsed 6).checksumBytes := by
    decide +kernel
  have hfilled := ((h _ _).mp hsame).filledAmounts readableHash
  have hdiffer : oneFill.filledAmounts.get? readableHash ≠
      (nonceUsed 6).filledAmounts.get? readableHash := by
    decide +kernel
  exact hdiffer hfilled

end StateStore

end ClobApi
