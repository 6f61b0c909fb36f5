import IpfsLite.Codec.CborEncodeStream
import IpfsLite.Codec.TinyCbor

/-! # `CborDecodeStream`

The stream that reads values one after the other (`codec/cbor/cbor_decode_stream.cpp`). It starts the
parser again after every item, and keeps the number of items that remain by hand. The parser that a
stream shares with its substreams always has the same end, so a position is what is left up to there. -/
namespace IpfsLite.Codec
set_option autoImplicit false

open Cbor (Major Argument Items)

inductive CborDecodeError where
  | invalidCbor
  | wrongType
  | intOverflow
  | invalidCborCid
  | invalidCid
  | wrongSize
  deriving DecidableEq, Repr

/-- How a call of the decoder ends when it does not return. -/
inductive Failure where
  /-- a `std::system_error` -/
  | raised (e : CborDecodeError)
  /-- a `std::length_error` of `resize` or `reserve` -/
  | lengthError
  /-- access to an element that is not there -/
  | outOfRange
  /-- an assertion of tinycbor -/
  | asserted
  /-- a loop that does not end with the items of its container -/
  | diverged
  deriving DecidableEq, Repr

/-- The parser, the sizes up to which `std::string`, `std::vector<uint8_t>` and the other vectors can
grow, and whether the assertions of tinycbor's accessors are compiled in. -/
structure Platform where
  tinycbor : TinyCbor
  stringMax : ℕ
  bytesMax : ℕ
  elementsMax : ℕ
  assertions : Bool
  stringMax_lt : stringMax < 2 ^ 64
  bytesMax_lt : bytesMax < 2 ^ 64
  bytesMax_ge : kUnknownCount ≤ bytesMax
  elementsMax_ge : kUnknownCount ≤ elementsMax

/-- With 64-bit sizes. -/
def Platform.reference : Platform where
  tinycbor := .reference
  stringMax := 2 ^ 63 - 1
  bytesMax := 2 ^ 63 - 1
  elementsMax := 2 ^ 57
  assertions := false
  stringMax_lt := by decide
  bytesMax_lt := by decide
  bytesMax_ge := by decide
  elementsMax_ge := by decide

structure CborDecodeStream where
  value : CborValue
  deriving DecidableEq

namespace CborDecodeStream

abbrev Result (α : Type) := Except Failure α

def raise {α : Type} (e : CborDecodeError) : Result α := .error (.raised e)

/-- `CborNoError != …` raises `INVALID_CBOR`. -/
def check {α : Type} : Option α → Result α
  | some a => .ok a
  | none => raise .invalidCbor

variable (P : Platform)

def create (data : Bytes) : Result CborDecodeStream := do
  let value ← check (P.tinycbor.parserInit data)
  .ok ⟨{ value with remaining := kUnknownCount }⟩

def isCid (s : CborDecodeStream) : Bool := s.value.type = some (.tag, some kCidTag)

def isNull (s : CborDecodeStream) : Bool := s.value.type = some (.simple, some 22)

def isList (s : CborDecodeStream) : Bool := s.value.type.map Prod.fst = some .array

def isMap (s : CborDecodeStream) : Bool := s.value.type.map Prod.fst = some .map

/-- `cbor_value_at_end`. -/
def atEnd (s : CborDecodeStream) : Bool := s.value.remaining = 0

/-- Where the parser starts again: there is one item less, on 32 bits. -/
def restart (remaining : ℕ) (value : CborValue) : Result CborDecodeStream :=
  if value.ptr ≠ [] then do
    let remaining := (remaining + (value.remaining + 2 ^ 32 - 1)) % 2 ^ 32
    let value ← check (P.tinycbor.parserInit value.ptr)
    .ok ⟨{ value with remaining := remaining }⟩
  else .ok ⟨value⟩

def next (s : CborDecodeStream) : Result CborDecodeStream := do
  let value ← if s.isCid then check (P.tinycbor.skipTag s.value) else .ok s.value
  let remaining := value.remaining
  let value ← check (P.tinycbor.advance { value with remaining := 1 })
  restart P remaining value

/-- The bytes between the two positions. -/
def raw (s : CborDecodeStream) : Result (Bytes × CborDecodeStream) := do
  let begin := s.value.ptr
  let s ← s.next P
  .ok (begin.take (begin.length - s.value.ptr.length), s)

/-! ## Integers and booleans -/

def readBool (s : CborDecodeStream) : Result (Bool × CborDecodeStream) :=
  match s.value.type with
  | some (.simple, some 20) => do .ok (false, ← s.next P)
  | some (.simple, some 21) => do .ok (true, ← s.next P)
  | _ => raise .wrongType

/-- `cbor_value_get_int64`: the number as 64 bits, negated where the major type says so. -/
def getInt64 (negative : Bool) (n : ℕ) : ℤ :=
  let bits : ℤ := if n < 2 ^ 63 then n else n - 2 ^ 64
  if negative then -bits - 1 else bits

def readUnsigned (max : ℕ) (s : CborDecodeStream) : Result (ℕ × CborDecodeStream) :=
  match s.value.type with
  | some (.unsigned, some n) => if max < n then raise .intOverflow else do .ok (n, ← s.next P)
  | some (.negative, _) => raise .intOverflow
  | _ => raise .wrongType

def readSigned (min max : ℤ) (s : CborDecodeStream) : Result (ℤ × CborDecodeStream) :=
  let bounded (n : ℤ) : Result (ℤ × CborDecodeStream) :=
    if max < n ∨ n < min then raise .intOverflow else do .ok (n, ← s.next P)
  match s.value.type with
  | some (.unsigned, some n) => bounded (getInt64 false n)
  | some (.negative, some n) => bounded (getInt64 true n)
  | _ => raise .wrongType

/-! ## Strings and CIDs -/

def bytesLength (s : CborDecodeStream) : Result ℕ :=
  match s.value.type with
  | some (.bytes, some n) => .ok n
  | some (.bytes, none) => raise .invalidCbor
  | _ => raise .wrongType

/-- Into a span of that size. -/
def readSpan (size : ℕ) (s : CborDecodeStream) : Result (Bytes × CborDecodeStream) := do
  let n ← s.bytesLength
  if size ≠ n then raise .wrongSize
  else
    let bytes ← check (P.tinycbor.copyString { s.value with remaining := 1 })
    .ok (bytes, ← s.next P)

/-- The vector has its size before anything is read. -/
def readBytes (s : CborDecodeStream) : Result (Bytes × CborDecodeStream) := do
  let n ← s.bytesLength
  if P.bytesMax < n then .error .lengthError else s.readSpan P n

def readString (s : CborDecodeStream) : Result (Bytes × CborDecodeStream) :=
  match s.value.type with
  | some (.text, some n) =>
    if P.stringMax < n then .error .lengthError
    else do
      let str ← check (P.tinycbor.copyString { s.value with remaining := 1 })
      .ok (str, ← s.next P)
  | some (.text, none) => raise .invalidCbor
  | _ => raise .wrongType

/-- The byte string of a CID, with the multibase prefix 0. -/
def readPayload (s : CborDecodeStream) : Result (CID × CborDecodeStream) :=
  match s.value.type with
  | some (.bytes, _) => do
    let (bytes, s) ← s.readBytes P
    match bytes with
    | [] => .error .outOfRange
    | b :: bytes =>
      if b ≠ 0 then raise .invalidCborCid
      else
        match CID.fromBytes bytes with
        | some cid => .ok (cid, s)
        | none => raise .invalidCid
  | _ => raise .invalidCborCid

/-- The tag is left with `cbor_value_advance` on the count as it is. -/
def readCid (s : CborDecodeStream) : Result (CID × CborDecodeStream) :=
  if s.isCid then do readPayload P ⟨← check (P.tinycbor.advance s.value)⟩ else raise .invalidCborCid

/-! ## Containers -/

def container (s : CborDecodeStream) : Result CborDecodeStream := do
  .ok ⟨← check (P.tinycbor.enterContainer s.value)⟩

def listLength (s : CborDecodeStream) : Result ℕ :=
  if P.assertions ∧ s.isList = false then .error .asserted
  else check (P.tinycbor.arrayLength s.value)

def list (s : CborDecodeStream) : Result (CborDecodeStream × CborDecodeStream) :=
  if s.isList then do
    let stream ← s.container P
    .ok (stream, ← s.next P)
  else raise .wrongType

/-- A round of the loop of `map`: a key, and the value in a parser of its own. -/
def entry (s : CborDecodeStream) : Result ((StringKey × CborDecodeStream) × CborDecodeStream) := do
  let (key, s) ← s.readString P
  let begin := s.value.ptr
  let value ← check (P.tinycbor.skipTag s.value)
  let value ← check (P.tinycbor.advance value)
  let stream ← check (P.tinycbor.parserInit (begin.take (begin.length - value.ptr.length)))
  .ok ((⟨key⟩, ⟨stream⟩), ⟨value⟩)

def entries : ℕ → CborDecodeStream → OrdMap StringKey CborDecodeStream →
    Result (OrdMap StringKey CborDecodeStream)
  | 0, s, map => if s.atEnd then .ok map else .error .diverged
  | fuel + 1, s, map =>
    if s.atEnd then .ok map
    else do
      let (e, s) ← s.entry P
      entries fuel s (map.emplace e.1 e.2)

/-- A round of the loop takes items off the count, so there are no more rounds than that. -/
def map (s : CborDecodeStream) :
    Result (OrdMap StringKey CborDecodeStream × CborDecodeStream) :=
  match s.value.type with
  | some (.map, _) => do
    let stream ← s.container P
    let next ← s.next P
    .ok (← entries P stream.value.remaining stream .empty, next)
  | _ => raise .wrongType

end CborDecodeStream
end IpfsLite.Codec
