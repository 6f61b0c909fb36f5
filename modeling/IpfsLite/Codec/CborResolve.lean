import IpfsLite.Codec.CborSkipping

/-! # Path resolution

`resolve` (`codec/cbor/cbor_resolve.cpp`): a part of a path is the index of a list or the key of a map, and
the stream is moved to the element. What tinycbor leaves of a value when a call fails is a parameter. -/
namespace IpfsLite.Codec
set_option autoImplicit false

inductive CborResolveError where
  | intKeyExpected
  | keyNotFound
  | containerExpected
  | intKeyTooBig
  deriving DecidableEq, Repr

/-! ## `std::stoul` -/

def isSpace (b : UInt8) : Bool := b.toNat = 32 ∨ 9 ≤ b.toNat ∧ b.toNat ≤ 13

def isDigit (b : UInt8) : Bool := 48 ≤ b.toNat ∧ b.toNat ≤ 57

def decimal (digits : Bytes) : ℕ := digits.foldl (fun n b => n * 10 + (b.toNat - 48)) 0

/-- The sign, and what follows it. -/
def splitSign : Bytes → Bytes × Bytes
  | [] => ([], [])
  | b :: rest => if b.toNat = 43 ∨ b.toNat = 45 then ([b], rest) else ([], b :: rest)

/-- What `strtoul` takes a string apart into. -/
structure Numeral where
  blanks : Bytes
  sign : Bytes
  digits : Bytes
  tail : Bytes

def scan (str : Bytes) : Numeral :=
  let signed := splitSign (str.dropWhile isSpace)
  ⟨str.takeWhile isSpace, signed.1, signed.2.takeWhile isDigit, signed.2.dropWhile isDigit⟩

def minus : Bytes := [45]

inductive Stoul where
  | invalidArgument
  | outOfRange
  | value (n chars : ℕ)
  deriving DecidableEq

/-- On 64 bits; a negative number is taken modulo their range. -/
def stoul (str : Bytes) : Stoul :=
  let num := scan str
  if num.digits = [] then .invalidArgument
  else if 2 ^ 64 ≤ decimal num.digits then .outOfRange
  else .value (if num.sign = minus then (2 ^ 64 - decimal num.digits) % 2 ^ 64 else decimal num.digits)
    (str.length - num.tail.length)

def parseIndex (str : Bytes) : Except CborResolveError ℕ :=
  match stoul str with
  | .invalidArgument => .error .intKeyExpected
  | .outOfRange => .error .keyNotFound
  | .value n chars =>
    if chars ≠ str.length then .error .intKeyExpected
    else if str.take 1 = minus then .error .intKeyExpected
    else .ok n

/-! ## `resolve` -/

/-- How `resolve` ends when it does not succeed: it returns the code of a `std::system_error`, any other
exception goes on to the caller. -/
inductive ResolveFailure where
  | resolve (e : CborResolveError)
  | decode (e : CborDecodeError)
  | escaped (f : Failure)
  deriving DecidableEq

def ResolveFailure.caught : Failure → ResolveFailure
  | .raised e => .decode e
  | f => .escaped f

/-- An error is returned. -/
def ResolveFailure.Returned (f : ResolveFailure) : Prop := ∀ g, f ≠ .escaped g

/-- What the calls of the parser leave of their value when they fail. -/
structure Leftovers where
  parserInit : Bytes → CborValue
  advance : CborValue → CborValue
  skipTag : CborValue → CborValue

/-- The value as it was. -/
def Leftovers.untouched : Leftovers := ⟨fun ptr => .reading ptr 1, id, id⟩

namespace CborDecodeStream
variable (P : Platform) (left : Leftovers)

/-- What `next` leaves of a stream when it raises. -/
def leftByNext (s : CborDecodeStream) : CborDecodeStream :=
  match if s.isCid then P.tinycbor.skipTag s.value else some s.value with
  | none => ⟨left.skipTag s.value⟩
  | some value =>
    match P.tinycbor.advance { value with remaining := 1 } with
    | none => ⟨left.advance { value with remaining := 1 }⟩
    | some value => ⟨left.parserInit value.ptr⟩

/-- `next`, with the stream after it. -/
def tryNext (s : CborDecodeStream) : Result Unit × CborDecodeStream :=
  match s.next P with
  | .ok s' => (.ok (), s')
  | .error f => (.error f, s.leftByNext P left)

/-- `container` and `next`, of which the first leaves the stream alone. -/
def tryEnter (s : CborDecodeStream) : Result CborDecodeStream × CborDecodeStream :=
  match s.container P with
  | .error f => (.error f, s)
  | .ok inner =>
    match s.tryNext P left with
    | (.error f, s) => (.error f, s)
    | (.ok (), s) => (.ok inner, s)

/-- `next`, so many times. -/
def walk : ℕ → CborDecodeStream → Result Unit × CborDecodeStream
  | 0, s => (.ok (), s)
  | index + 1, s =>
    match s.tryNext P left with
    | (.error f, s) => (.error f, s)
    | (.ok (), s) => walk index s

def resolveList (s : CborDecodeStream) (part : Bytes) : Except ResolveFailure Unit × CborDecodeStream :=
  match parseIndex part with
  | .error e => (.error (.resolve e), s)
  | .ok index =>
    match s.listLength P with
    | .error f => (.error (.caught f), s)
    | .ok n =>
      if n ≤ index then (.error (.resolve .keyNotFound), s)
      else
        match s.tryEnter P left with
        | (.error f, s) => (.error (.caught f), s)
        | (.ok stream, _) =>
          match walk P left index stream with
          | (.error f, stream) => (.error (.caught f), stream)
          | (.ok (), stream) => (.ok (), stream)

def resolveMap (s : CborDecodeStream) (part : Bytes) : Except ResolveFailure Unit × CborDecodeStream :=
  match s.tryEnter P left with
  | (.error f, s) => (.error (.caught f), s)
  | (.ok stream, s) =>
    match entries P stream.value.remaining stream .empty with
    | .error f => (.error (.caught f), s)
    | .ok m =>
      match m.find? ⟨part⟩ with
      | none => (.error (.resolve .keyNotFound), s)
      | some stream => (.ok (), stream)

/-- What `resolve` returns, and the stream after it. -/
def resolve (s : CborDecodeStream) (part : Bytes) : Except ResolveFailure Unit × CborDecodeStream :=
  if s.isList then s.resolveList P left part
  else if s.isMap then s.resolveMap P left part
  else (.error (.resolve .containerExpected), s)

/-! `tryEnter` is what `list` and `map` begin with. -/

variable {P} {left}

theorem tryNext_ok {s s' : CborDecodeStream} (h : s.next P = .ok s') : s.tryNext P left = (.ok (), s') := by
  rw [tryNext, h]

theorem tryNext_error {s : CborDecodeStream} {f : Failure} (h : s.next P = .error f) :
    s.tryNext P left = (.error f, s.leftByNext P left) := by rw [tryNext, h]

theorem list_tryEnter {s : CborDecodeStream} (h : s.isList = true) :
    s.list P = (s.tryEnter P left).1.map fun stream => (stream, (s.tryEnter P left).2) := by
  rw [list, if_pos h, tryEnter]
  cases s.container P with
  | error f => rfl
  | ok inner =>
    cases hnext : s.next P with
    | error f =>
      simp only [tryNext_error hnext]
      rfl
    | ok s' =>
      simp only [tryNext_ok hnext]
      rfl

theorem map_tryEnter {s : CborDecodeStream} (h : s.isMap = true) :
    s.map P = (s.tryEnter P left).1.bind fun stream =>
      (entries P stream.value.remaining stream .empty).map fun m => (m, (s.tryEnter P left).2) := by
  have htype : ∃ n, s.value.type = some (.map, n) := by
    rw [isMap, decide_eq_true_iff, Option.map_eq_some_iff] at h
    obtain ⟨⟨m, n⟩, htype, rfl⟩ := h
    exact ⟨n, htype⟩
  obtain ⟨n, htype⟩ := htype
  rw [map, htype, tryEnter]
  cases s.container P with
  | error f => rfl
  | ok inner =>
    cases hnext : s.next P with
    | error f =>
      simp only [tryNext_error hnext]
      rfl
    | ok s' =>
      simp only [tryNext_ok hnext]
      simp only [bind, Except.bind]
      cases entries P inner.value.remaining inner .empty <;> rfl

end CborDecodeStream
end IpfsLite.Codec
