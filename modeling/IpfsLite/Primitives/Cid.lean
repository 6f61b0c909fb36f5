import IpfsLite.Foundations.Varint

/-! # Content identifiers

`CID`, `CID::read` and the IPFS hasher (`primitives/cid/cid.cpp`, `codec/uvarint.hpp`,
`crypto/hasher/hasher.cpp`). The byte form of a CID is libp2p's `ContentIdentifierCodec`, which
follows the CID specification: a V0 CID is a bare sha2-256 multihash, a V1 CID is the version, the
codec and the multihash. The two hash functions themselves are a parameter. -/
namespace IpfsLite
set_option autoImplicit false

namespace HashType
def sha256 : UInt64 := 0x12
def blake2b256 : UInt64 := 0xb220
end HashType

namespace Multicodec
def dagPb : UInt64 := 0x70
def dagCbor : UInt64 := 0x71
end Multicodec

def kMaxHashLength : ℕ := 127

/-- libp2p's multihash: a hash of at most `kMaxHashLength` bytes, tagged with its type. -/
structure Multihash where
  type : UInt64
  hash : Bytes
  bounded : hash.length ≤ kMaxHashLength
  deriving DecidableEq

namespace Multihash

def create (type : UInt64) (hash : Bytes) : Option Multihash :=
  if h : hash.length ≤ kMaxHashLength then some ⟨type, hash, h⟩ else none

theorem create_of_le {type : UInt64} {hash : Bytes} (h : hash.length ≤ kMaxHashLength) :
    create type hash = some ⟨type, hash, h⟩ := dif_pos h

/-- The type and the length, without the hash. -/
def head (m : Multihash) : Bytes := Varint.encode m.type.toNat ++ Varint.encode m.hash.length

def toBuffer (m : Multihash) : Bytes := m.head ++ m.hash

def createFromBytes (bytes : Bytes) : Option Multihash := do
  let (type, rest) ← Varint.decode bytes
  let (len, rest) ← Varint.decode rest
  if 2 ^ 64 ≤ type ∨ rest.length ≠ len then none else create (UInt64.ofNat type) rest

theorem length_lt (m : Multihash) : m.hash.length < 2 ^ 64 := by
  have := m.bounded
  unfold kMaxHashLength at this
  omega

theorem createFromBytes_toBuffer (m : Multihash) : createFromBytes m.toBuffer = some m := by
  have htype : ¬ 2 ^ 64 ≤ m.type.toNat := Nat.not_le.mpr m.type.toNat_lt
  simp only [createFromBytes, toBuffer, head, List.append_assoc, Varint.decode_encode_append m.type.toNat_lt,
    Varint.decode_encode_append m.length_lt, Option.bind_eq_bind, Option.bind_some, htype, ne_eq, not_true,
    or_self, if_false, UInt64.ofNat_toNat]
  exact create_of_le m.bounded

end Multihash

/-! ## `IPFSHasher` -/

/-- The two hash functions, which are libraries. -/
structure Hasher where
  sha2_256 : Bytes → Bytes
  blake2b_256 : Bytes → Bytes
  sha2_256_length : ∀ b, (sha2_256 b).length = 32
  blake2b_256_length : ∀ b, (blake2b_256 b).length = 32

/-- The table has two methods, `at` throws for every other type. -/
def Hasher.calculate (H : Hasher) (type : UInt64) (buffer : Bytes) : Option Multihash :=
  if type = HashType.sha256 then Multihash.create HashType.sha256 (H.sha2_256 buffer)
  else if type = HashType.blake2b256 then
    Multihash.create HashType.blake2b256 (H.blake2b_256 buffer)
  else none

theorem Hasher.calculate_type {H : Hasher} {type : UInt64} {buffer : Bytes} {m : Multihash}
    (h : H.calculate type buffer = some m) : m.type = type ∧ m.hash.length = 32 := by
  have hle : (32 : ℕ) ≤ kMaxHashLength := by decide
  unfold calculate at h
  by_cases hsha : type = HashType.sha256
  · rw [if_pos hsha, Multihash.create_of_le (by rw [H.sha2_256_length]; exact hle)] at h
    rw [← Option.some.inj h]
    exact ⟨hsha.symm, H.sha2_256_length buffer⟩
  rw [if_neg hsha] at h
  by_cases hblake : type = HashType.blake2b256
  · rw [if_pos hblake, Multihash.create_of_le (by rw [H.blake2b_256_length]; exact hle)] at h
    rw [← Option.some.inj h]
    exact ⟨hblake.symm, H.blake2b_256_length buffer⟩
  · rw [if_neg hblake] at h
    exact absurd h (Option.some_ne_none m).symm

inductive Version where
  | v0
  | v1
  deriving DecidableEq, Repr

structure CID where
  version : Version
  contentType : UInt64
  contentAddress : Multihash
  deriving DecidableEq

namespace CID

/-- The default value: an empty identity hash. -/
def empty : CID := ⟨.v0, 0, ⟨0, [], by decide⟩⟩

/-! ## The byte form -/

def IsV0 (c : CID) : Prop :=
  c.version = .v0 ∧ c.contentType = Multicodec.dagPb ∧ c.contentAddress.type = HashType.sha256 ∧
    c.contentAddress.hash.length = 32

instance (c : CID) : Decidable c.IsV0 := inferInstanceAs (Decidable (_ ∧ _ ∧ _ ∧ _))

/-- The version and the codec, which a V0 CID leaves out. -/
def head (c : CID) : Bytes :=
  match c.version with
  | .v0 => []
  | .v1 => Varint.encode 1 ++ Varint.encode c.contentType.toNat

/-- `ContentIdentifierCodec::encode`: a V0 CID must be a DAG-PB node under a full sha2-256. -/
def toBytes (c : CID) : Option Bytes :=
  match c.version with
  | .v1 => some (c.head ++ c.contentAddress.toBuffer)
  | .v0 => if c.IsV0 then some c.contentAddress.toBuffer else none

/-- `ContentIdentifierCodec::decode`. -/
def fromBytes (bytes : Bytes) : Option CID :=
  if bytes.length = 34 ∧ bytes.take 2 = [0x12, 0x20] then
    (Multihash.createFromBytes bytes).map fun m => ⟨.v0, Multicodec.dagPb, m⟩
  else do
    let (version, rest) ← Varint.decode bytes
    if version ≠ 1 then none
    else
      let (codec, rest) ← Varint.decode rest
      if 2 ^ 64 ≤ codec then none
      else (Multihash.createFromBytes rest).map fun m => ⟨.v1, UInt64.ofNat codec, m⟩

/-! ## `CID::read` -/

inductive ReadError where
  | emptyVersion
  | reservedVersion
  | emptyMulticodec
  | zeroInputLength
  | inputTooShort
  | inputTooLong
  | inconsistentLength
  /-- a `gsl::span` contract violation ends the process -/
  | terminated
  deriving DecidableEq, Repr

/-- `codec::uvarint::read`: a varint of at most 64 bits, or the caller's error. -/
def readUvarint {ε : Type} (error : ε) (input : Bytes) : Except ε (UInt64 × Bytes) :=
  match Varint.decode input with
  | some (n, rest) => if n < 2 ^ 64 then .ok (UInt64.ofNat n, rest) else .error error
  | none => .error error

/-- A size converted to the signed size of a span. -/
def ptrdiff (n : ℕ) : ℤ := if n < 2 ^ 63 then n else n - 2 ^ 64

/-- `gsl::span::subspan`: the count -1 goes to the end, anything else out of range ends the process. -/
def subspan (input : Bytes) (offset count : ℤ) : Option Bytes :=
  if offset < 0 ∨ (input.length : ℤ) < offset then none
  else if count = -1 then some (input.drop offset.toNat)
  else if count < 0 ∨ (input.length : ℤ) - offset < count then none
  else some ((input.drop offset.toNat).take count.toNat)

/-- `input.subspan(0, size)` and then `input.subspan(size)`. -/
def splitSpan (size : ℤ) (input : Bytes) : Option (Bytes × Bytes) := do
  let taken ← subspan input 0 size
  let input ← subspan input size (-1)
  some (taken, input)

/-- What `codec::uvarint::readBytes` ends with, if not with bytes. -/
inductive SpanFailure (ε : Type) where
  | returned (e : ε)
  /-- a `gsl::span` contract violation ends the process -/
  | terminated
  deriving DecidableEq

/-- `codec::uvarint::readBytes`: the bytes behind their length. -/
def readBytes {ε : Type} (errorLength errorData : ε) (input : Bytes) : Except (SpanFailure ε) (Bytes × Bytes) :=
  match readUvarint errorLength input with
  | .error e => .error (.returned e)
  | .ok (size, input) =>
    if (input.length : ℤ) < ptrdiff size.toNat then .error (.returned errorData)
    else (splitSpan (ptrdiff size.toNat) input).elim (.error .terminated) .ok

/-- The version and the codec: a bare sha2-256 head stands for V0 DAG-PB. -/
def readHead (input : Bytes) (isPrefix : Bool) : Except ReadError (Version × UInt64 × Bytes) :=
  if input.take 2 = [0x12, 0x20] then
    if isPrefix = false ∧ input.length < 34 then .error .inconsistentLength
    else .ok (.v0, Multicodec.dagPb, input)
  else do
    let (version, input) ← readUvarint .emptyVersion input
    let version ←
      if version = 0 then .ok Version.v0
      else if version = 1 then .ok Version.v1
      else .error .reservedVersion
    let (codec, input) ← readUvarint .emptyMulticodec input
    .ok (version, codec, input)

/-- In prefix mode the digest is absent and a static zero array stands in for it. A span past its end is
refused by its length, before a byte of it is read. -/
def readDigest (hashSize : ℕ) (input : Bytes) (isPrefix : Bool) : Except ReadError (Bytes × Bytes) :=
  if isPrefix then
    if ptrdiff hashSize < 0 then .error .terminated
    else .ok (List.replicate (min hashSize (kMaxHashLength + 1)) 0, input)
  else if (input.length : ℤ) < ptrdiff hashSize then .error .inconsistentLength
  else (splitSpan (ptrdiff hashSize) input).elim (.error .terminated) .ok

def read (input : Bytes) (isPrefix : Bool) : Except ReadError (CID × Bytes) := do
  let (version, codec, input) ← readHead input isPrefix
  let (hashType, input) ← readUvarint .zeroInputLength input
  let (hashSize, input) ← readUvarint .inputTooShort input
  let (hash, input) ← readDigest hashSize.toNat input isPrefix
  match Multihash.create hashType hash with
  | some m => .ok (⟨version, codec, m⟩, input)
  | none => .error .inputTooLong

/-! ## The prefix of a CID -/

/-- A CID without its hash. -/
def cidPrefix (c : CID) : Bytes := c.head ++ c.contentAddress.head

/-- What prefix mode puts in the place of the hash. -/
def blank (c : CID) : CID :=
  { c with contentAddress :=
      ⟨c.contentAddress.type, List.replicate c.contentAddress.hash.length 0, by
        simpa using c.contentAddress.bounded⟩ }

theorem toBytes_eq {c : CID} {d : Bytes} (h : c.toBytes = some d) :
    (c.version = .v1 ∨ c.IsV0) ∧ d = c.cidPrefix ++ c.contentAddress.hash := by
  unfold toBytes at h
  cases hv : c.version with
  | v1 =>
    rw [hv] at h
    refine ⟨.inl rfl, ?_⟩
    rw [← Option.some.inj h, cidPrefix, Multihash.toBuffer, List.append_assoc]
  | v0 =>
    simp only [hv] at h
    by_cases h0 : c.IsV0
    · rw [if_pos h0] at h
      refine ⟨.inr h0, ?_⟩
      rw [← Option.some.inj h, cidPrefix, head, hv, Multihash.toBuffer, List.nil_append]
    · rw [if_neg h0] at h
      exact absurd h (Option.some_ne_none d).symm

theorem IsV0.head_contentAddress {c : CID} (h : c.IsV0) : c.contentAddress.head = [0x12, 0x20] := by
  obtain ⟨-, -, htype, h32⟩ := h
  rw [Multihash.head, htype, h32]
  decide

theorem readUvarint_encode {ε : Type} (error : ε) (n : UInt64) (rest : Bytes) :
    readUvarint error (Varint.encode n.toNat ++ rest) = .ok (n, rest) := by
  rw [readUvarint, Varint.decode_encode_append n.toNat_lt]
  simp only [n.toNat_lt, if_true, UInt64.ofNat_toNat]

theorem readHead_v1 {c : CID} (hv : c.version = .v1) (rest : Bytes) :
    readHead (c.head ++ rest) true = .ok (.v1, c.contentType, rest) := by
  have hone : Varint.encode 1 = [1] := by decide
  have hread := readUvarint_encode ReadError.emptyVersion 1 (Varint.encode c.contentType.toNat ++ rest)
  have hcodec := readUvarint_encode ReadError.emptyMulticodec c.contentType rest
  rw [show ((1 : UInt64).toNat) = 1 from rfl, hone] at hread
  have hne : ((1 : UInt8) :: (Varint.encode c.contentType.toNat ++ rest)).take 2 ≠ [0x12, 0x20] := by
    intro he
    have := congrArg List.head? he
    simp at this
  rw [readHead, head, hv]
  simp only [hone, List.cons_append, List.nil_append] at hread ⊢
  rw [if_neg hne, hread]
  simp only [bind, Except.bind, hcodec]
  rfl

theorem read_cidPrefix {c : CID} (hc : c.version = .v1 ∨ c.IsV0) (rest : Bytes) :
    read (c.cidPrefix ++ rest) true = .ok (c.blank, rest) := by
  have hlen := c.contentAddress.length_lt
  have hb := c.contentAddress.bounded
  have hhead : readHead (c.cidPrefix ++ rest) true =
      .ok (c.version, c.contentType, c.contentAddress.head ++ rest) := by
    rcases hc with hv | ⟨hv, hcodec, htype, h32⟩
    · rw [cidPrefix, List.append_assoc, readHead_v1 hv, hv]
    · rw [cidPrefix, head, hv, hcodec, IsV0.head_contentAddress ⟨hv, hcodec, htype, h32⟩]
      rfl
  have hsize := readUvarint_encode ReadError.inputTooShort (UInt64.ofNat c.contentAddress.hash.length) rest
  rw [UInt64.toNat_ofNat_of_lt' hlen] at hsize
  have hdigest : readDigest c.contentAddress.hash.length rest true =
      .ok (List.replicate c.contentAddress.hash.length 0, rest) := by
    unfold kMaxHashLength at hb
    have hpos : ¬ ptrdiff c.contentAddress.hash.length < 0 := by
      unfold ptrdiff
      rw [if_pos (by omega)]
      omega
    rw [readDigest, if_pos rfl, if_neg hpos, Nat.min_eq_left (by unfold kMaxHashLength; omega)]
  rw [read, hhead]
  simp only [bind, Except.bind, Multihash.head, List.append_assoc, readUvarint_encode, hsize,
    UInt64.toNat_ofNat_of_lt' hlen, hdigest]
  rw [Multihash.create_of_le (by simpa using hb)]
  rfl

/-! ## The byte form is read back -/

theorem toBytes_length_le {c : CID} {d : Bytes} (h : c.toBytes = some d) : d.length ≤ 167 := by
  have hcodec := Varint.encode_length_le c.contentType.toNat
  have htype := Varint.encode_length_le c.contentAddress.type.toNat
  have hlen := Varint.encode_length_le c.contentAddress.hash.length
  have hone := Varint.encode_length_le 1
  have hhash := c.contentAddress.bounded
  unfold kMaxHashLength at hhash
  have hhead : c.head.length ≤ 20 := by
    unfold head
    cases c.version with
    | v0 => exact Nat.zero_le _
    | v1 =>
      rw [List.length_append]
      omega
  rw [(toBytes_eq h).2]
  simp only [cidPrefix, Multihash.head, List.length_append]
  omega

/-- The first byte tells the versions apart. -/
theorem toBytes_head {c : CID} {d : Bytes} (h : c.toBytes = some d) :
    ∃ rest, d = 1 :: rest ∨ d = 0x12 :: rest := by
  obtain ⟨hv | h0, rfl⟩ := toBytes_eq h
  · refine ⟨Varint.encode c.contentType.toNat ++ c.contentAddress.head ++ c.contentAddress.hash, .inl ?_⟩
    have hone : Varint.encode 1 = [1] := by decide
    simp [cidPrefix, head, hv, hone]
  · refine ⟨0x20 :: c.contentAddress.hash, .inr ?_⟩
    rw [cidPrefix, head, h0.1, h0.head_contentAddress]
    rfl

theorem fromBytes_toBytes {c : CID} {d : Bytes} (h : c.toBytes = some d) : fromBytes d = some c := by
  unfold toBytes at h
  cases hv : c.version with
  | v0 =>
    simp only [hv] at h
    by_cases h0 : c.IsV0
    · rw [if_pos h0] at h
      have hd : d = [0x12, 0x20] ++ c.contentAddress.hash := by
        rw [← Option.some.inj h, Multihash.toBuffer, h0.head_contentAddress]
      have hlen : d.length = 34 := by
        rw [hd, List.length_append, h0.2.2.2]
        rfl
      have htake : d.take 2 = [0x12, 0x20] := by rw [hd]; rfl
      rw [fromBytes, if_pos ⟨hlen, htake⟩, ← Option.some.inj h, Multihash.createFromBytes_toBuffer,
        Option.map_some, ← h0.2.1, ← hv]
    · rw [if_neg h0] at h
      exact absurd h (Option.some_ne_none d).symm
  | v1 =>
    simp only [hv] at h
    have hone : Varint.encode 1 = [1] := by decide
    have hd : d = Varint.encode 1 ++ (Varint.encode c.contentType.toNat ++ c.contentAddress.toBuffer) := by
      rw [← Option.some.inj h, head, hv]
      exact List.append_assoc _ _ _
    have hne : ¬ (d.length = 34 ∧ d.take 2 = [0x12, 0x20]) := by
      rintro ⟨-, htake⟩
      have := congrArg List.head? (hd ▸ htake)
      simp [hone] at this
    have hcodec : ¬ 2 ^ 64 ≤ c.contentType.toNat := Nat.not_le.mpr c.contentType.toNat_lt
    rw [fromBytes, if_neg hne, hd, Varint.decode_encode_append (by decide)]
    simp only [Option.bind_eq_bind, Option.bind_some, ne_eq, not_true, if_false,
      Varint.decode_encode_append c.contentType.toNat_lt, hcodec, Multihash.createFromBytes_toBuffer,
      Option.map_some, UInt64.ofNat_toNat]
    rw [← hv]

theorem toBytes_inj {c c' : CID} {d : Bytes} (h : c.toBytes = some d) (h' : c'.toBytes = some d) :
    c = c' :=
  Option.some.inj ((fromBytes_toBytes h).symm.trans (fromBytes_toBytes h'))

end CID
end IpfsLite
