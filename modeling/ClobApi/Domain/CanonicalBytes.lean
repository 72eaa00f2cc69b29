import ClobApi.Domain.Order
import ClobApi.Foundation.Encoding
import ClobApi.Foundation.Records

/-!
# The layout of the canonical bytes

Behind the three strings all fields have a fixed size, so they can be read off
the end of the bytes, however long the strings are.
-/

namespace ClobApi

open Foundation

/-! ## Integers and strings -/

theorem u16BeBytes_eq (n : UInt16) : u16BeBytes n = bigEndian 2 n.toNat := by
  have hshift : (n >>> 8).toUInt8 = UInt8.ofNat (n.toNat / 256) := by
    rw [← UInt8.toNat_inj]
    simp [Nat.shiftRight_eq_div_pow]
  have hlow : n.toUInt8 = UInt8.ofNat n.toNat := by
    rw [← UInt8.toNat_inj]
    simp
  simp only [u16BeBytes, bigEndian, hshift, hlow, List.nil_append,
    List.cons_append]

theorem u64BeBytes_eq (n : UInt64) : u64BeBytes n = bigEndian 8 n.toNat := by
  have hdigit : ∀ (k : UInt64) (q : Nat), k.toNat < 64 → 2 ^ k.toNat = q →
      (n >>> k).toUInt8 = UInt8.ofNat (n.toNat / q) := by
    rintro k q hk rfl
    rw [← UInt8.toNat_inj]
    simp [Nat.shiftRight_eq_div_pow, Nat.mod_eq_of_lt hk]
  have hlow : n.toUInt8 = UInt8.ofNat n.toNat := by
    rw [← UInt8.toNat_inj]
    simp
  simp only [u64BeBytes, bigEndian, Nat.div_div_eq_div_mul, List.nil_append,
    List.cons_append]
  rw [hdigit 56 _ (by decide) rfl, hdigit 48 _ (by decide) rfl,
    hdigit 40 _ (by decide) rfl, hdigit 32 _ (by decide) rfl,
    hdigit 24 _ (by decide) rfl, hdigit 16 _ (by decide) rfl,
    hdigit 8 _ (by decide) rfl, hlow]
  simp

theorem u16BeBytes_ofNat_inj {m n : Nat} :
    u16BeBytes (UInt16.ofNat m) = u16BeBytes (UInt16.ofNat n) ↔
      m % 65536 = n % 65536 := by
  rw [u16BeBytes_eq, u16BeBytes_eq, bigEndian_inj]
  simp

theorem u64BeBytes_inj {m n : UInt64} :
    u64BeBytes m = u64BeBytes n ↔ m = n := by
  rw [u64BeBytes_eq, u64BeBytes_eq, bigEndian_inj, ← UInt64.toNat_inj]
  have hm := m.toNat_lt
  have hn := n.toNat_lt
  rw [Nat.mod_eq_of_lt (by omega), Nat.mod_eq_of_lt (by omega)]

@[simp] theorem length_u64BeBytes (n : UInt64) : (u64BeBytes n).length = 8 :=
  rfl

theorem u64BeBytes_append_inj {m n : UInt64} {l l' : List UInt8} :
    u64BeBytes m ++ l = u64BeBytes n ++ l' ↔ m = n ∧ l = l' := by
  rw [List.append_eq_append_iff_of_size_eq_left (by simp), u64BeBytes_inj]

theorem utf8Bytes_inj {s t : String} : utf8Bytes s = utf8Bytes t ↔ s = t := by
  constructor
  · intro h
    rw [← String.toByteArray_inj, ByteArray.ext_iff, ← Array.toList_inj]
    exact h
  · rintro rfl
    rfl

theorem utf8Bytes_append (s t : String) :
    utf8Bytes (s ++ t) = utf8Bytes s ++ utf8Bytes t := by
  simp [utf8Bytes, String.toUTF8]

theorem utf8Bytes_eq_nil {s : String} : utf8Bytes s = [] ↔ s = "" := by
  rw [← utf8Bytes_inj]
  rfl

theorem utf8Bytes_ofList_cons (c : Char) (chars : List Char) :
    utf8Bytes (String.ofList (c :: chars)) =
      String.utf8EncodeChar c ++ utf8Bytes (String.ofList chars) := by
  rw [← List.singleton_append, String.ofList_append, utf8Bytes_append]
  congr 1
  simp [utf8Bytes, String.toUTF8, List.utf8Encode]

theorem length_utf8Bytes_ofList {chars : List Char}
    (h : ∀ c ∈ chars, c.utf8Size = 1) :
    (utf8Bytes (String.ofList chars)).length = chars.length := by
  induction chars with
  | nil => rfl
  | cons c chars ih =>
      rw [utf8Bytes_ofList_cons, List.length_append,
        String.length_utf8EncodeChar, h c List.mem_cons_self,
        ih fun c' hc' => h c' (List.mem_cons_of_mem _ hc'), List.length_cons]
      omega

theorem utf8Size_hexDigit {n : UInt8} (h : n.toNat < 16) :
    (hexDigit n).utf8Size = 1 := by
  have hascii : ∀ k < 128, (Char.ofNat k).val ≤ 127 := by decide +kernel
  rw [Char.utf8Size_eq_one_iff]
  unfold hexDigit
  split
  · exact hascii _ (by omega)
  · exact hascii _ (by omega)

theorem length_utf8Bytes_hexEncode (bytes : List UInt8) :
    (utf8Bytes (hexEncode bytes)).length = 2 * bytes.length := by
  unfold hexEncode
  rw [length_utf8Bytes_ofList]
  · simp [List.length_flatMap, List.map_const', Nat.mul_comm]
  · intro c hc
    obtain ⟨b, -, hdigit⟩ := List.mem_flatMap.mp hc
    have hhigh : (b / 16).toNat < 16 := by
      have := b.toNat_lt
      rw [UInt8.toNat_div]
      change b.toNat / 16 < 16
      omega
    have hlow : (b % 16).toNat < 16 := by
      rw [UInt8.toNat_mod]
      exact Nat.mod_lt _ (by decide)
    simp only [List.mem_cons, List.not_mem_nil, or_false] at hdigit
    rcases hdigit with rfl | rfl
    · exact utf8Size_hexDigit hhigh
    · exact utf8Size_hexDigit hlow

theorem hexDigits_prefixFree :
    PrefixFree fun b : UInt8 => [hexDigit (b / 16), hexDigit (b % 16)] := by
  intro b b' rest rest' h
  have hdigit : ∀ m < 16, ∀ n < 16,
      hexDigit (UInt8.ofNat m) = hexDigit (UInt8.ofNat n) → m = n := by
    decide +kernel
  have hhigh : ∀ b : UInt8, b / 16 = UInt8.ofNat (b.toNat / 16) := by
    intro b
    have hb := b.toNat_lt
    rw [← UInt8.toNat_inj, UInt8.toNat_div, UInt8.toNat_ofNat']
    exact (Nat.mod_eq_of_lt (show b.toNat / 16 < 256 by omega)).symm
  have hlow : ∀ b : UInt8, b % 16 = UInt8.ofNat (b.toNat % 16) := by
    intro b
    rw [← UInt8.toNat_inj, UInt8.toNat_mod, UInt8.toNat_ofNat']
    exact (Nat.mod_eq_of_lt (show b.toNat % 16 < 256 by omega)).symm
  simp only [List.cons_append, List.nil_append, List.cons.injEq, hhigh,
    hlow] at h
  obtain ⟨hfirst, hsecond, hrest⟩ := h
  have hb := b.toNat_lt
  have hb' := b'.toNat_lt
  have hfirst' := hdigit _ (by omega) _ (by omega) hfirst
  have hsecond' := hdigit _ (by omega) _ (by omega) hsecond
  exact ⟨UInt8.toNat_inj.mp (by omega), hrest⟩

theorem hexEncode_inj {bytes bytes' : List UInt8} :
    hexEncode bytes = hexEncode bytes' ↔ bytes = bytes' := by
  unfold hexEncode
  rw [String.ofList_inj]
  exact hexDigits_prefixFree.flatMap_inj fun _ => List.cons_ne_nil _ _

theorem length_lengthPrefixed (s : String) :
    (lengthPrefixed s).length = 2 + (utf8Bytes s).length := by
  simp [lengthPrefixed, u16BeBytes]
  omega

theorem TimeInForce.unique (t t' : TimeInForce) : t = t' := by
  cases t
  cases t'
  rfl

theorem Side.discriminant_inj {side side' : Side} :
    side.discriminant = side'.discriminant ↔ side = side' := by
  cases side <;> cases side' <;> decide

/-! ## The fields of a fixed size -/

namespace SignedOrder

/-- The fields behind the three strings. -/
def fixedBytes (signed : SignedOrder) : List UInt8 :=
  [signed.side.discriminant] ++
    u64BeBytes signed.priceTicks ++
    u64BeBytes signed.sizeLots ++
    [signed.timeInForce.discriminant] ++
    u64BeBytes signed.nonce ++
    u64BeBytes signed.expiryTsMs ++
    u64BeBytes signed.createdAtMs ++
    u64BeBytes signed.salt ++
    signed.traderPubkey.toList

/-- Equal in every field behind the strings; the signature is not hashed. -/
structure SameFixed (a b : SignedOrder) : Prop where
  side : a.side = b.side
  priceTicks : a.priceTicks = b.priceTicks
  sizeLots : a.sizeLots = b.sizeLots
  timeInForce : a.timeInForce = b.timeInForce
  nonce : a.nonce = b.nonce
  expiryTsMs : a.expiryTsMs = b.expiryTsMs
  createdAtMs : a.createdAtMs = b.createdAtMs
  salt : a.salt = b.salt
  traderPubkey : a.traderPubkey = b.traderPubkey

variable {a b : SignedOrder}

theorem SameFixed.symm (h : a.SameFixed b) : b.SameFixed a :=
  ⟨h.side.symm, h.priceTicks.symm, h.sizeLots.symm, h.timeInForce.symm,
    h.nonce.symm, h.expiryTsMs.symm, h.createdAtMs.symm, h.salt.symm,
    h.traderPubkey.symm⟩

theorem length_fixedBytes (signed : SignedOrder) :
    signed.fixedBytes.length = 82 := by
  simp [fixedBytes, u64BeBytes]

theorem fixedBytes_inj : a.fixedBytes = b.fixedBytes ↔ a.SameFixed b := by
  simp only [fixedBytes, List.append_assoc, List.cons_append, List.nil_append,
    List.cons.injEq, u64BeBytes_append_inj, Side.discriminant_inj,
    Vector.toList_inj]
  constructor
  · rintro ⟨hside, hprice, hsize, -, hnonce, hexpiry, hcreated, hsalt, hkey⟩
    exact ⟨hside, hprice, hsize, TimeInForce.unique _ _, hnonce, hexpiry,
      hcreated, hsalt, hkey⟩
  · intro h
    exact ⟨h.side, h.priceTicks, h.sizeLots, trivial, h.nonce, h.expiryTsMs,
      h.createdAtMs, h.salt, h.traderPubkey⟩

/-! ## The whole encoding -/

/-- The bytes in front of the fields of a fixed size. -/
def stringBytes (signed : SignedOrder) : List UInt8 :=
  u16BeBytes signed.schemaVersion ++
    (lengthPrefixed signed.marketId.value ++
      (lengthPrefixed signed.traderId ++ lengthPrefixed signed.clientOrderId))

theorem canonicalBytes_eq (signed : SignedOrder) :
    signed.canonicalBytes = signed.stringBytes ++ signed.fixedBytes := by
  simp [canonicalBytes, stringBytes, fixedBytes]

theorem canonicalBytes_inj :
    a.canonicalBytes = b.canonicalBytes ↔
      a.stringBytes = b.stringBytes ∧ a.SameFixed b := by
  rw [canonicalBytes_eq, canonicalBytes_eq, ← fixedBytes_inj]
  constructor
  · intro h
    exact List.append_inj' h
      ((length_fixedBytes a).trans (length_fixedBytes b).symm)
  · rintro ⟨hstrings, hfixed⟩
    rw [hstrings, hfixed]

end SignedOrder

end ClobApi
