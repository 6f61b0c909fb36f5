import IpfsLite.Codec.CborDecodeStream

/-! # Encoding and decoding of typed values

`operator<<` and `operator>>` of the two streams for the types that they take apart themselves:
`bool`, the fixed-width integers, strings, byte vectors, CIDs, and optionals, vectors and maps of them;
`Blob` and `BigInt` are written as bytes. -/
namespace IpfsLite.Codec
set_option autoImplicit false

inductive IntWidth where
  | w8
  | w16
  | w32
  | w64
  deriving DecidableEq, Repr

def IntWidth.bits : IntWidth → ℕ
  | .w8 => 8
  | .w16 => 16
  | .w32 => 32
  | .w64 => 64

inductive Ty where
  | bool
  | unsigned (w : IntWidth)
  | signed (w : IntWidth)
  | string
  | bytes
  | cid
  | blob (size : ℕ)
  | bigInt
  | optional (t : Ty)
  | vector (t : Ty)
  | map (t : Ty)
  deriving DecidableEq, Repr

namespace Ty

@[reducible]
def Val : Ty → Type
  | .bool => Bool
  | .unsigned w => BitVec w.bits
  | .signed w => BitVec w.bits
  | .string => Bytes
  | .bytes => Bytes
  | .cid => CID
  | .blob _ => Bytes
  | .bigInt => ℤ
  | .optional t => Option t.Val
  | .vector t => List t.Val
  | .map t => OrdMap StringKey t.Val

/-- The types of the codec itself. Optionals do not nest; `std::vector<bool>` has no elements to refer to,
and a vector of `uint8_t` is a byte string. -/
def Ok : Ty → Prop
  | .bool | .unsigned _ | .signed _ | .string | .bytes | .cid => True
  | .blob _ | .bigInt => False
  | .optional t => (∀ u, t ≠ .optional u) ∧ t.Ok
  | .vector t => t ≠ .bool ∧ t ≠ .unsigned .w8 ∧ t.Ok
  | .map t => t.Ok

/-- The values that there are, can be encoded and counted: a string has at most its greatest size, a
container fewer items than tinycbor's 32-bit count can hold, a CID has bytes. -/
def Fits (P : Platform) : (t : Ty) → t.Val → Prop
  | .bool, _ | .unsigned _, _ | .signed _, _ | .bigInt, _ => True
  | .string, str => str.length ≤ P.stringMax
  | .bytes, b | .blob _, b => b.length ≤ P.bytesMax
  | .cid, c => c.toBytes.isSome = true
  | .optional t, o => ∀ v, o = some v → t.Fits P v
  | .vector t, vs => vs.length < kUnknownCount ∧ ∀ v ∈ vs, t.Fits P v
  | .map t, m => 2 * m.entries.length < kUnknownCount ∧
      ∀ e ∈ m.entries, e.1.str.length ≤ P.stringMax ∧ t.Fits P e.2

/-- The bytes of a number, the most significant first (`export_bits`). -/
def exportBits (n : ℕ) : Bytes := (Nat.digits 256 n).reverse.map UInt8.ofNat

/-- A byte for the sign, nothing for zero. -/
def bigIntBytes (n : ℤ) : Bytes := if n = 0 then [] else (if n < 0 then 1 else 0) :: exportBits n.natAbs

def bigIntOf : Bytes → ℤ
  | [] => 0
  | b :: data => if b = 1 then -(Cbor.ofBigEndian data : ℤ) else Cbor.ofBigEndian data

/-- `operator<<`. -/
def write : (t : Ty) → t.Val → CborEncodeStream → Except CborEncodeError CborEncodeStream
  | .bool, b, s => .ok (s.writeBool b)
  | .unsigned _, n, s => .ok (s.writeUnsigned n.toNat)
  | .signed _, n, s => .ok (s.writeSigned n.toInt)
  | .string, str, s => .ok (s.writeString str)
  | .bytes, b, s => .ok (s.writeBytes b)
  | .cid, c, s => s.writeCid c
  | .blob _, b, s => .ok (s.writeBytes b)
  | .bigInt, n, s => .ok (s.writeBytes (bigIntBytes n))
  | .optional _, none, s => .ok s.writeNull
  | .optional t, some v, s => t.write v s
  | .vector t, vs, s => do
    let l ← vs.foldlM (fun l v => t.write v l) CborEncodeStream.list
    .ok (s.writeStream l)
  | .map t, items, s => do
    let m ← items.entries.foldlM (fun m e => do
      let stream ← t.write e.2 ((OrdMap.find? m e.1).getD .init)
      .ok (m.insert e.1 stream)) OrdMap.empty
    s.writeMap m

/-- The loop over the elements of a list. -/
def readN {α : Type} (read : CborDecodeStream → CborDecodeStream.Result (α × CborDecodeStream)) :
    ℕ → CborDecodeStream → CborDecodeStream.Result (List α × CborDecodeStream)
  | 0, s => .ok ([], s)
  | n + 1, s => do
    let (v, s) ← read s
    let (vs, s) ← readN read n s
    .ok (v :: vs, s)

/-- The loop over the entries of a map, each in a stream of its own. -/
def readEntries {α : Type} (read : CborDecodeStream → CborDecodeStream.Result (α × CborDecodeStream)) :
    List (StringKey × CborDecodeStream) → OrdMap StringKey α → CborDecodeStream.Result (OrdMap StringKey α)
  | [], items => .ok items
  | e :: es, items => do
    let (v, _) ← read e.2
    readEntries read es (items.insert e.1 v)

/-- `operator>>`. -/
def read (P : Platform) : (t : Ty) → CborDecodeStream → CborDecodeStream.Result (t.Val × CborDecodeStream)
  | .bool, s => s.readBool P
  | .unsigned w, s => do
    let (n, s) ← s.readUnsigned P (2 ^ w.bits - 1)
    .ok (BitVec.ofNat w.bits n, s)
  | .signed w, s => do
    let (n, s) ← s.readSigned P (-2 ^ (w.bits - 1)) (2 ^ (w.bits - 1) - 1)
    .ok (BitVec.ofInt w.bits n, s)
  | .string, s => s.readString P
  | .bytes, s => s.readBytes P
  | .cid, s => s.readCid P
  | .blob size, s => s.readSpan P size
  | .bigInt, s => do
    let (data, s) ← s.readBytes P
    .ok (bigIntOf data, s)
  | .optional t, s =>
    if s.isNull then do .ok (none, ← s.next P)
    else do
      let (v, s) ← t.read P s
      .ok (some v, s)
  | .vector t, s => do
    let n ← s.listLength P
    let (l, s) ← s.list P
    if P.elementsMax < n then .error .lengthError
    else
      let (vs, _) ← readN (t.read P) n l
      .ok (vs, s)
  | .map t, s => do
    let (m, s) ← s.map P
    let items ← readEntries (t.read P) m.entries .empty
    .ok (items, s)

/-- `codec::cbor::encode`. -/
def encode (t : Ty) (v : t.Val) : Except CborEncodeError Bytes :=
  (t.write v .init).map CborEncodeStream.data

/-- `codec::cbor::decode`. -/
def decode (P : Platform) (t : Ty) (input : Bytes) : CborDecodeStream.Result t.Val := do
  let decoder ← CborDecodeStream.create P input
  let (data, _) ← t.read P decoder
  .ok data

end Ty

/-! ## Sequences -/

/-- A value with its type. -/
abbrev Typed := (t : Ty) × t.Val

/-- `s << v1 << … << vn`. -/
def writeAll (vs : List Typed) (s : CborEncodeStream) : Except CborEncodeError CborEncodeStream :=
  vs.foldlM (fun s v => v.1.write v.2 s) s

/-- `s >> v1 >> … >> vn`. -/
def readAll (P : Platform) : List Ty → CborDecodeStream → CborDecodeStream.Result (List Typed)
  | [], _ => .ok []
  | t :: ts, s => do
    let (v, s) ← t.read P s
    let vs ← readAll P ts s
    .ok (⟨t, v⟩ :: vs)

end IpfsLite.Codec
