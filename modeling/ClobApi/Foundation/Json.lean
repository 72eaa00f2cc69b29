import Mathlib.Algebra.Group.Nat.Defs
import Mathlib.Data.List.Nodup

/-!
# JSON formats

How values are written as JSON and read back: numbers of a fixed width, lists,
records with named fields and enumerations whose objects carry a tag.  A codec
reads back whatever it wrote of a value that fits the widths.
-/

namespace ClobApi.Foundation

/-- A JSON value; a number keeps the kind under which it was parsed. -/
inductive Json where
  | null
  | bool (b : Bool)
  | unsigned (n : UInt64)
  | negative (n : Int64)
  | float (bits : UInt64)
  | string (s : String)
  | array (items : List Json)
  | object (entries : List (String × Json))

structure Codec (α : Type) where
  encode : α → Json
  decode : Json → Option α
  /-- The numbers in the value fit the widths they are written in. -/
  Fits : α → Prop
  decode_encode {a : α} (fits : Fits a) : decode (encode a) = some a

/-! ## Primitive values -/

namespace Codec

variable {α β : Type}

def string : Codec String where
  encode := .string
  decode
    | .string s => some s
    | _ => none
  Fits _ := True
  decode_encode _ := rfl

def u64 : Codec UInt64 where
  encode := .unsigned
  decode
    | .unsigned n => some n
    | _ => none
  Fits _ := True
  decode_encode _ := rfl

/-- Another type that is written as another codec writes it. -/
def map (codec : Codec α) (make : α → β) (view : β → α)
    (make_view : ∀ b, make (view b) = b) : Codec β where
  encode b := codec.encode (view b)
  decode json := (codec.decode json).map make
  Fits b := codec.Fits (view b)
  decode_encode fits := by
    rw [codec.decode_encode fits, Option.map_some, make_view]

/-- A type whose values are some of those that another codec reads. -/
def filterMap (codec : Codec α) (make : α → Option β) (view : β → α)
    (Fits : β → Prop) (fits_view : ∀ b, Fits b → codec.Fits (view b))
    (make_view : ∀ b, Fits b → make (view b) = some b) : Codec β where
  encode b := codec.encode (view b)
  decode json := (codec.decode json).bind make
  Fits := Fits
  decode_encode {b} fits := by
    rw [codec.decode_encode (fits_view b fits), Option.bind_some,
      make_view b fits]

@[simp] theorem fits_string (s : String) : string.Fits s := trivial

@[simp] theorem fits_u64 (n : UInt64) : u64.Fits n := trivial

@[simp] theorem fits_map {codec : Codec α} {make : α → β}
    {view : β → α} {make_view : ∀ b, make (view b) = b} (b : β) :
    (codec.map make view make_view).Fits b ↔ codec.Fits (view b) :=
  Iff.rfl

def counter : Codec Nat :=
  u64.filterMap (fun n => some n.toNat) UInt64.ofNat (· < 2 ^ 64)
    (fun _ _ => trivial) fun _ hn =>
      congrArg some (UInt64.toNat_ofNat_of_lt hn)

def u16 : Codec UInt16 :=
  u64.filterMap (fun n => if n.toNat < 2 ^ 16 then some n.toUInt16 else none)
    UInt16.toUInt64 (fun _ => True) (fun _ _ => trivial) fun n _ => by
      simp [n.toNat_lt]

def u8 : Codec UInt8 :=
  u64.filterMap (fun n => if n.toNat < 2 ^ 8 then some n.toUInt8 else none)
    UInt8.toUInt64 (fun _ => True) (fun _ _ => trivial) fun n _ => by
      simp [n.toNat_lt]

@[simp] theorem fits_counter (n : Nat) : counter.Fits n ↔ n < 2 ^ 64 :=
  Iff.rfl

@[simp] theorem fits_u16 (n : UInt16) : u16.Fits n := trivial

@[simp] theorem fits_u8 (n : UInt8) : u8.Fits n := trivial

theorem mapM_decode (codec : Codec α) {items : List α}
    (fits : ∀ a ∈ items, codec.Fits a) :
    (items.map codec.encode).mapM codec.decode = some items := by
  induction items with
  | nil => rfl
  | cons a items ih =>
      rw [List.map_cons, List.mapM_cons,
        codec.decode_encode (fits a List.mem_cons_self),
        ih fun b hb => fits b (List.mem_cons_of_mem _ hb)]
      rfl

def list (codec : Codec α) : Codec (List α) where
  encode items := .array (items.map codec.encode)
  decode
    | .array items => items.mapM codec.decode
    | _ => none
  Fits items := ∀ a ∈ items, codec.Fits a
  decode_encode fits := codec.mapM_decode fits

def vector (codec : Codec α) (n : Nat) : Codec (Vector α n) :=
  codec.list.filterMap
    (fun items =>
      if h : items.length = n then some ⟨⟨items⟩, h⟩ else none)
    Vector.toList (fun items => ∀ a ∈ items.toList, codec.Fits a)
    (fun _ fits => fits) fun items _ => by
      rw [dif_pos items.length_toList]
      rfl

@[simp] theorem fits_list {codec : Codec α} (items : List α) :
    codec.list.Fits items ↔ ∀ a ∈ items, codec.Fits a :=
  Iff.rfl

@[simp] theorem fits_vector {codec : Codec α} {n : Nat} (items : Vector α n) :
    (codec.vector n).Fits items ↔ ∀ a ∈ items.toList, codec.Fits a :=
  Iff.rfl

/-- An enumeration without data, written as the name of the value. -/
def units (name : α → String) (all : List α)
    (find_name : ∀ a, all.find? (fun b => name b = name a) = some a) :
    Codec α :=
  string.filterMap (fun s => all.find? fun b => name b = s) name
    (fun _ => True) (fun _ _ => trivial) fun a _ => find_name a

@[simp] theorem fits_units {name : α → String} {all : List α}
    {find_name : ∀ a, all.find? (fun b => name b = name a) = some a}
    (a : α) : (units name all find_name).Fits a :=
  trivial

end Codec

/-! ## Records -/

/-- The value of a field; a field that stands there twice is an error. -/
def field? (entries : List (String × Json)) (name : String) : Option Json :=
  match entries.filter fun entry => entry.1 = name with
  | [entry] => some entry.2
  | _ => none

theorem field?_of_mem {entries : List (String × Json)}
    (hnodup : (entries.map Prod.fst).Nodup) {name : String} {item : Json}
    (hmem : (name, item) ∈ entries) : field? entries name = some item := by
  obtain ⟨before, after, rfl⟩ := List.append_of_mem hmem
  have hother : ∀ entry ∈ before ++ after, entry.1 ≠ name := by
    rw [List.map_append, List.map_cons,
      List.perm_middle.nodup_iff, List.nodup_cons, ← List.map_append] at hnodup
    rintro entry hentry rfl
    exact hnodup.1 (List.mem_map.mpr ⟨entry, hentry, rfl⟩)
  have hbefore : before.filter (fun entry => entry.1 = name) = [] := by
    simpa using fun a b h => hother (a, b) (List.mem_append_left _ h)
  have hafter : after.filter (fun entry => entry.1 = name) = [] := by
    simpa using fun a b h => hother (a, b) (List.mem_append_right _ h)
  simp [field?, hbefore, hafter]

/-- The values of the named fields, from an object or from an array in order. -/
def Json.columns (names : List String) : Json → Option (List Json)
  | .object entries => names.mapM (field? entries)
  | .array items => if items.length = names.length then some items else none
  | _ => none

theorem mapM_eq_some_of_zip {α β : Type} {f : α → Option β} {keys : List α}
    {items : List β} (hlength : items.length = keys.length)
    (h : ∀ entry ∈ keys.zip items, f entry.1 = some entry.2) :
    keys.mapM f = some items := by
  induction keys generalizing items with
  | nil =>
      rw [List.length_eq_zero_iff.mp hlength]
      rfl
  | cons key keys ih =>
      cases items with
      | nil => cases hlength
      | cons item items =>
          rw [List.mapM_cons, h (key, item) List.mem_cons_self,
            ih (Nat.succ.inj hlength) fun entry hentry =>
              h entry (List.mem_cons_of_mem _ hentry)]
          rfl

theorem Json.columns_zip {names : List String} {items : List Json}
    (hnodup : names.Nodup) (hlength : items.length = names.length) :
    (Json.object (names.zip items)).columns names = some items := by
  refine mapM_eq_some_of_zip hlength fun entry hentry => field?_of_mem ?_ hentry
  rwa [List.map_fst_zip (Nat.le_of_eq hlength.symm)]

/-- The fields of a record, in the order in which they are declared. -/
structure Fields (α : Type) where
  names : List String
  encode : α → List Json
  decode : List Json → Option α
  Fits : α → Prop
  length_encode (a : α) : (encode a).length = names.length
  decode_encode {a : α} (fits : Fits a) : decode (encode a) = some a

namespace Fields

variable {α β : Type}

def nil : Fields Unit where
  names := []
  encode _ := []
  decode
    | [] => some ()
    | _ :: _ => none
  Fits _ := True
  length_encode _ := rfl
  decode_encode _ := rfl

def cons (name : String) (codec : Codec α) (fields : Fields β) :
    Fields (α × β) where
  names := name :: fields.names
  encode a := codec.encode a.1 :: fields.encode a.2
  decode
    | [] => none
    | item :: items => do
        let a ← codec.decode item
        let b ← fields.decode items
        pure (a, b)
  Fits a := codec.Fits a.1 ∧ fields.Fits a.2
  length_encode a := congrArg (· + 1) (fields.length_encode a.2)
  decode_encode fits := by
    simp [codec.decode_encode fits.1, fields.decode_encode fits.2]

def map (fields : Fields α) (make : α → β) (view : β → α)
    (make_view : ∀ b, make (view b) = b) : Fields β where
  names := fields.names
  encode b := fields.encode (view b)
  decode items := (fields.decode items).map make
  Fits b := fields.Fits (view b)
  length_encode b := fields.length_encode (view b)
  decode_encode fits := by
    rw [fields.decode_encode fits, Option.map_some, make_view]

def codec (fields : Fields α) (nodup : fields.names.Nodup) : Codec α where
  encode a := .object (fields.names.zip (fields.encode a))
  decode json := (json.columns fields.names).bind fields.decode
  Fits := fields.Fits
  decode_encode {a} fits := by
    rw [Json.columns_zip nodup (fields.length_encode a)]
    exact fields.decode_encode fits

@[simp] theorem fits_nil (a : Unit) : nil.Fits a := trivial

@[simp] theorem fits_cons {name : String} {codec : Codec α}
    {fields : Fields β} (a : α × β) :
    (cons name codec fields).Fits a ↔ codec.Fits a.1 ∧ fields.Fits a.2 :=
  Iff.rfl

@[simp] theorem fits_map {fields : Fields α} {make : α → β}
    {view : β → α} {make_view : ∀ b, make (view b) = b} (b : β) :
    (fields.map make view make_view).Fits b ↔ fields.Fits (view b) :=
  Iff.rfl

@[simp] theorem fits_codec {fields : Fields α} {nodup : fields.names.Nodup}
    (a : α) : (fields.codec nodup).Fits a ↔ fields.Fits a :=
  Iff.rfl

end Fields

/-! ## Tagged enumerations -/

/-- One variant of an enumeration: the values that it writes, and its fields. -/
structure Variant (α : Type) where
  name : String
  names : List String
  encode : α → Option (List Json)
  decode : List Json → Option α
  Fits : α → Prop
  length_encode {a : α} {items : List Json} (written : encode a = some items) :
    items.length = names.length
  decode_encode {a : α} {items : List Json} (fits : Fits a)
    (written : encode a = some items) : decode items = some a

def Fields.variant {α β : Type} (fields : Fields β) (name : String)
    (make : β → α) (view : α → Option β)
    (make_view : ∀ a b, view a = some b → make b = a) : Variant α where
  name := name
  names := fields.names
  encode a := (view a).map fields.encode
  decode items := (fields.decode items).map make
  Fits a := ∀ b, view a = some b → fields.Fits b
  length_encode written := by
    obtain ⟨b, -, rfl⟩ := Option.map_eq_some_iff.mp written
    exact fields.length_encode b
  decode_encode fits written := by
    obtain ⟨b, hview, rfl⟩ := Option.map_eq_some_iff.mp written
    rw [fields.decode_encode (fits b hview), Option.map_some,
      make_view _ b hview]

@[simp] theorem Fields.fits_variant {α β : Type} {fields : Fields β}
    {name : String} {make : β → α} {view : α → Option β}
    {make_view : ∀ a b, view a = some b → make b = a} (a : α) :
    (fields.variant name make view make_view).Fits a ↔
      ∀ b, view a = some b → fields.Fits b :=
  Iff.rfl

/--
Splits the tag from the content: it is an entry of an object or stands at the
head of an array.
-/
def Json.untag (tag : String) : Json → Option (String × Json)
  | .object entries =>
      match field? entries tag with
      | some (.string name) =>
          some (name, .object (entries.filter fun entry => entry.1 ≠ tag))
      | _ => none
  | .array (.string name :: items) => some (name, .array items)
  | _ => none

theorem Json.untag_cons {tag name : String} {entries : List (String × Json)}
    (hfresh : ∀ entry ∈ entries, entry.1 ≠ tag) :
    (Json.object ((tag, .string name) :: entries)).untag tag =
      some (name, .object entries) := by
  have hkeep : entries.filter (fun entry => decide (entry.1 ≠ tag)) =
      entries :=
    List.filter_eq_self.mpr fun entry hentry =>
      decide_eq_true (hfresh entry hentry)
  have hnone : entries.filter (fun entry => decide (entry.1 = tag)) = [] :=
    List.filter_eq_nil_iff.mpr fun entry hentry =>
      decide_eq_false (hfresh entry hentry) ▸ Bool.false_ne_true
  simp only [untag, field?, List.filter_cons, hkeep, hnone]
  simp

/-- An enumeration whose objects name the variant in the entry `tag`. -/
structure Tagged (α : Type) where
  tag : String
  variants : List (Variant α)
  names_nodup : (variants.map Variant.name).Nodup
  fields_nodup : ∀ v ∈ variants, (tag :: v.names).Nodup
  /-- Every value belongs to a variant. -/
  total : ∀ a, ∃ v ∈ variants, (v.encode a).isSome = true

namespace Tagged

variable {α : Type} (tagged : Tagged α)

def encode (a : α) : Json :=
  (tagged.variants.findSome? fun v =>
    (v.encode a).map fun items =>
      .object ((tagged.tag, .string v.name) :: v.names.zip items)).getD .null

def decode (json : Json) : Option α := do
  let (name, content) ← json.untag tagged.tag
  let v ← tagged.variants.find? fun v => v.name = name
  let items ← content.columns v.names
  v.decode items

theorem encode_eq (a : α) : ∃ v ∈ tagged.variants, ∃ items,
    v.encode a = some items ∧ tagged.encode a =
      .object ((tagged.tag, .string v.name) :: v.names.zip items) := by
  obtain ⟨w, hw, hsome⟩ := tagged.total a
  have hfound : (tagged.variants.findSome? fun v =>
      (v.encode a).map fun items =>
        Json.object ((tagged.tag, .string v.name) ::
          v.names.zip items)).isSome = true :=
    List.findSome?_isSome_iff.mpr ⟨w, hw, by simpa using hsome⟩
  obtain ⟨json, hjson⟩ := Option.isSome_iff_exists.mp hfound
  obtain ⟨v, hv, hmap⟩ := List.exists_of_findSome?_eq_some hjson
  obtain ⟨items, hwritten, rfl⟩ := Option.map_eq_some_iff.mp hmap
  exact ⟨v, hv, items, hwritten, by rw [encode, hjson, Option.getD_some]⟩

theorem find?_name {v : Variant α} (hv : v ∈ tagged.variants) :
    tagged.variants.find? (fun w => w.name = v.name) = some v := by
  have hsome : (tagged.variants.find? fun w => w.name = v.name).isSome :=
    List.find?_isSome.mpr ⟨v, hv, decide_eq_true rfl⟩
  obtain ⟨w, hw⟩ := Option.isSome_iff_exists.mp hsome
  have hname : w.name = v.name := by simpa using List.find?_some hw
  rw [hw, List.inj_on_of_nodup_map tagged.names_nodup
    (List.mem_of_find?_eq_some hw) hv hname]

def codec : Codec α where
  encode := tagged.encode
  decode := tagged.decode
  Fits a := ∀ v ∈ tagged.variants, v.Fits a
  decode_encode {a} fits := by
    obtain ⟨v, hv, items, hwritten, hencode⟩ := tagged.encode_eq a
    obtain ⟨htag, hnodup⟩ := List.nodup_cons.mp (tagged.fields_nodup v hv)
    have hfresh : ∀ entry ∈ v.names.zip items, entry.1 ≠ tagged.tag := by
      rintro entry hentry heq
      exact htag (heq ▸ (List.of_mem_zip hentry).1)
    have hcolumns := Json.columns_zip hnodup (v.length_encode hwritten)
    simp only [hencode, decode, Json.untag_cons hfresh,
      tagged.find?_name hv, hcolumns, Option.bind_eq_bind, Option.bind_some]
    exact v.decode_encode (fits v hv) hwritten

theorem fits_codec (a : α) :
    tagged.codec.Fits a ↔ ∀ v ∈ tagged.variants, v.Fits a :=
  Iff.rfl

end Tagged

end ClobApi.Foundation
