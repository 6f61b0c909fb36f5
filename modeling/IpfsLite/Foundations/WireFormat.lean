import IpfsLite.Foundations.Varint

/-! # The protocol-buffer wire format

A serialized message is a sequence of fields, each a tag (field number and wire type) and a value.
`encodeFields` writes such a sequence, `readFields` is the schema-independent half of a parser:
it cuts the input into fields and leaves their meaning to the schema. Unknown groups are skipped,
as parsers do, and no writer here produces one. -/
namespace IpfsLite.Wire
set_option autoImplicit false

inductive WireValue where
  | varint (n : ℕ)
  | fixed64 (payload : Bytes)
  | delimited (payload : Bytes)
  | group
  | fixed32 (payload : Bytes)
  deriving DecidableEq, Repr

def WireValue.wireType : WireValue → ℕ
  | .varint _ => 0
  | .fixed64 _ => 1
  | .delimited _ => 2
  | .group => 3
  | .fixed32 _ => 5

structure Field where
  number : ℕ
  value : WireValue
  deriving DecidableEq, Repr

/-! ## Writing -/

def tag (number wireType : ℕ) : Bytes := Varint.encode (number * 8 + wireType)

def WireValue.payload (number : ℕ) : WireValue → Bytes
  | .varint n => Varint.encode n
  | .fixed64 b => b
  | .delimited b => Varint.encode b.length ++ b
  | .group => tag number 4
  | .fixed32 b => b

def Field.encode (f : Field) : Bytes := tag f.number f.value.wireType ++ f.value.payload f.number

def encodeFields (fs : List Field) : Bytes := fs.flatMap Field.encode

@[simp] theorem encodeFields_nil : encodeFields [] = [] := rfl

@[simp] theorem encodeFields_cons (f : Field) (fs : List Field) :
    encodeFields (f :: fs) = f.encode ++ encodeFields fs := rfl

@[simp] theorem encodeFields_append (fs gs : List Field) :
    encodeFields (fs ++ gs) = encodeFields fs ++ encodeFields gs := List.flatMap_append

/-- A length-delimited field whose payload is itself a field sequence. -/
def message (number : ℕ) (fs : List Field) : Field := ⟨number, .delimited (encodeFields fs)⟩

/-! ## Sizes -/

/-- Bytes of a varint. -/
def varintSize (n : ℕ) : ℕ := (Varint.encode n).length

/-- Bytes of a length-delimited field, tag and length prefix included. -/
def delimitedSize (number len : ℕ) : ℕ := varintSize (number * 8 + 2) + varintSize len + len

theorem encode_delimited_length (number : ℕ) (b : Bytes) :
    (Field.encode ⟨number, .delimited b⟩).length = delimitedSize number b.length := by
  simp [Field.encode, tag, WireValue.wireType, WireValue.payload, delimitedSize, varintSize,
    Nat.add_assoc]

theorem encode_varint_length (number n : ℕ) :
    (Field.encode ⟨number, .varint n⟩).length = varintSize (number * 8) + varintSize n := by
  simp [Field.encode, tag, WireValue.wireType, WireValue.payload, varintSize]

theorem encodeFields_length (fs : List Field) :
    (encodeFields fs).length = (fs.map fun f => f.encode.length).sum := by
  simp [encodeFields, List.length_flatMap]

theorem le_delimitedSize (number len : ℕ) : len < delimitedSize number len := by
  have := Varint.encode_length_pos (number * 8 + 2)
  unfold delimitedSize varintSize
  omega

/-! ## Reading -/

def readTag (bytes : Bytes) : Option (ℕ × Bytes) :=
  (Varint.decodeGroups 5 bytes).map fun r => (r.1 % 2 ^ 32, r.2)

def takeExactly (n : ℕ) (bytes : Bytes) : Option (Bytes × Bytes) :=
  if bytes.length < n then none else some (bytes.take n, bytes.drop n)

/-- The value of a field that is not a group. -/
def readScalar (wireType : ℕ) (bytes : Bytes) : Option (WireValue × Bytes) :=
  match wireType with
  | 0 => (Varint.decode bytes).map fun r => (.varint (r.1 % 2 ^ 64), r.2)
  | 1 => (takeExactly 8 bytes).map fun r => (.fixed64 r.1, r.2)
  | 2 => do
    let (len, rest) ← Varint.decodeGroups 5 bytes
    let (b, rest) ← takeExactly len rest
    some (.delimited b, rest)
  | 5 => (takeExactly 4 bytes).map fun r => (.fixed32 r.1, r.2)
  | _ => none

/-- Nested messages and groups deeper than this are refused. -/
def recursionLimit : ℕ := 100

/-- Skips to the end of the innermost groups that are `opened`, the last opened first. -/
def skipGroups : ℕ → List ℕ → Bytes → Option Bytes
  | _, [], bytes => some bytes
  | 0, _, _ => none
  | fuel + 1, g :: opened, bytes => do
    let (t, rest) ← readTag bytes
    if t / 8 = 0 then none
    else if t % 8 = 3 then
      if recursionLimit ≤ opened.length + 1 then none
      else skipGroups fuel (t / 8 :: g :: opened) rest
    else if t % 8 = 4 then
      if t / 8 = g then skipGroups fuel opened rest else none
    else do
      let (_, rest) ← readScalar (t % 8) rest
      skipGroups fuel (g :: opened) rest

def readField (bytes : Bytes) : Option (Field × Bytes) := do
  let (t, rest) ← readTag bytes
  if t / 8 = 0 then none
  else if t % 8 = 3 then
    (skipGroups rest.length [t / 8] rest).map fun rest => (⟨t / 8, .group⟩, rest)
  else (readScalar (t % 8) rest).map fun r => (⟨t / 8, r.1⟩, r.2)

def readFieldsFuel : ℕ → Bytes → Option (List Field)
  | _, [] => some []
  | 0, _ => none
  | fuel + 1, bytes => do
    let (f, rest) ← readField bytes
    let fs ← readFieldsFuel fuel rest
    some (f :: fs)

/-- Every field takes at least one byte, so the input's length is fuel enough. -/
def readFields (bytes : Bytes) : Option (List Field) := readFieldsFuel bytes.length bytes

/-! ## Round trip -/

/-- What a writer may produce: a legal field number and a value of its wire type's range. -/
def Field.WellFormed (f : Field) : Prop :=
  0 < f.number ∧ f.number < 2 ^ 29 ∧
    match f.value with
    | .varint n => n < 2 ^ 64
    | .fixed64 b => b.length = 8
    | .delimited b => b.length < 2 ^ 31
    | .group => False
    | .fixed32 b => b.length = 4

theorem takeExactly_append (b rest : Bytes) : takeExactly b.length (b ++ rest) = some (b, rest) := by
  simp [takeExactly]

theorem readTag_tag {number wireType : ℕ} (hn : number < 2 ^ 29) (hw : wireType < 8)
    (rest : Bytes) : readTag (tag number wireType ++ rest) = some (number * 8 + wireType, rest) := by
  have hlt : number * 8 + wireType < 2 ^ 32 := by omega
  rw [readTag, tag, Varint.decodeGroups_five (by omega), Option.map_some, Nat.mod_eq_of_lt hlt]

theorem readScalar_payload {number : ℕ} {v : WireValue}
    (h : Field.WellFormed ⟨number, v⟩) (rest : Bytes) :
    readScalar v.wireType (v.payload number ++ rest) = some (v, rest) := by
  obtain ⟨-, -, hv⟩ := h
  cases v with
  | varint n =>
    have hn : n < 2 ^ 64 := hv
    simp only [readScalar, WireValue.wireType, WireValue.payload, Varint.decode_encode_append hn,
      Option.map_some, Nat.mod_eq_of_lt hn]
  | fixed64 b =>
    have hb : b.length = 8 := hv
    simp [readScalar, WireValue.wireType, WireValue.payload, ← hb, takeExactly_append]
  | delimited b =>
    have hb : b.length < 2 ^ 31 := hv
    simp [readScalar, WireValue.wireType, WireValue.payload, List.append_assoc,
      Varint.decodeGroups_five (show b.length < 2 ^ 35 by omega), takeExactly_append]
  | group => exact hv.elim
  | fixed32 b =>
    have hb : b.length = 4 := hv
    simp [readScalar, WireValue.wireType, WireValue.payload, ← hb, takeExactly_append]

theorem readField_encode {f : Field} (h : f.WellFormed) (rest : Bytes) :
    readField (f.encode ++ rest) = some (f, rest) := by
  have hw : f.value.wireType < 8 := by cases f.value <;> simp [WireValue.wireType]
  have hgroup : f.value.wireType ≠ 3 := by
    intro h3
    cases hv : f.value <;> simp_all [WireValue.wireType, Field.WellFormed]
  have hnum : (f.number * 8 + f.value.wireType) / 8 = f.number := by omega
  have hwire : (f.number * 8 + f.value.wireType) % 8 = f.value.wireType := by omega
  rw [readField, Field.encode, List.append_assoc, readTag_tag h.2.1 hw]
  simp only [Option.bind_eq_bind, Option.bind_some, hnum, hwire, hgroup, if_false,
    Nat.pos_iff_ne_zero.mp h.1, readScalar_payload h, Option.map_some]

theorem encode_ne_nil (f : Field) : f.encode ≠ [] := by
  simp [Field.encode, tag, Varint.encode_ne_nil]

theorem readFieldsFuel_encodeFields {fs : List Field} (h : ∀ f ∈ fs, f.WellFormed) {fuel : ℕ}
    (hfuel : fs.length ≤ fuel) : readFieldsFuel fuel (encodeFields fs) = some fs := by
  induction fs generalizing fuel with
  | nil => cases fuel <;> rfl
  | cons f fs ih =>
    obtain ⟨fuel, rfl⟩ : ∃ k, fuel = k + 1 := ⟨fuel - 1, by simp at hfuel; omega⟩
    have hlen : fs.length ≤ fuel := by simpa using hfuel
    have hrest := ih (fun g hg => h g (List.mem_cons_of_mem f hg)) hlen
    rw [encodeFields_cons]
    have hne : f.encode ++ encodeFields fs ≠ [] := by simp [encode_ne_nil]
    rw [readFieldsFuel.eq_3 _ _ (by simpa using hne)]
    rw [readField_encode (h f List.mem_cons_self)]
    simp [hrest]

theorem length_le_encodeFields (fs : List Field) : fs.length ≤ (encodeFields fs).length := by
  induction fs with
  | nil => simp
  | cons f fs ih =>
    have := List.length_pos_of_ne_nil (encode_ne_nil f)
    simp only [encodeFields_cons, List.length_cons, List.length_append]
    omega

/-- **Reading back what was written.** -/
theorem readFields_encodeFields {fs : List Field} (h : ∀ f ∈ fs, f.WellFormed) :
    readFields (encodeFields fs) = some fs :=
  readFieldsFuel_encodeFields h (length_le_encodeFields fs)

/-! ## Small messages -/

/-- `WellFormed` up to the length of a payload. -/
def Field.Legal (f : Field) : Prop :=
  0 < f.number ∧ f.number < 2 ^ 29 ∧
    match f.value with
    | .varint n => n < 2 ^ 64
    | .delimited _ => True
    | _ => False

theorem encode_length_le_of_mem {f : Field} {fs : List Field} (h : f ∈ fs) :
    f.encode.length ≤ (encodeFields fs).length := by
  obtain ⟨pre, post, rfl⟩ := List.append_of_mem h
  simp only [encodeFields_append, encodeFields_cons, List.length_append]
  omega

theorem payload_length_le {number : ℕ} {b : Bytes} {fs : List Field}
    (h : (⟨number, .delimited b⟩ : Field) ∈ fs) : b.length ≤ (encodeFields fs).length := by
  have hle := encode_length_le_of_mem h
  have hlt := le_delimitedSize number b.length
  rw [encode_delimited_length] at hle
  omega

theorem readFields_of_small {fs : List Field} (h : ∀ f ∈ fs, f.Legal)
    (hsmall : (encodeFields fs).length < 2 ^ 31) : readFields (encodeFields fs) = some fs := by
  refine readFields_encodeFields fun f hf => ?_
  obtain ⟨number, value⟩ := f
  obtain ⟨hpos, hlt, hv⟩ := h _ hf
  cases value with
  | varint n => exact ⟨hpos, hlt, hv⟩
  | delimited b =>
    have hb := payload_length_le hf
    exact ⟨hpos, hlt, Nat.lt_of_le_of_lt hb hsmall⟩
  | _ => exact hv.elim

end IpfsLite.Wire
