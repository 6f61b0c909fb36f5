import IpfsLite.Foundations.Schema
import IpfsLite.Graphsync.Message

/-! # Marshalling

The generated class `pb::Message` (`message.proto`), the request and response builders over it, the
serializer with its length prefix, and the parser. A map field keeps its entries in insertion
order; the sizes and what is parsed do not depend on it. -/
namespace IpfsLite.Graphsync
set_option autoImplicit false

open Wire

namespace Pb

structure Request where
  id : ℤ
  root : Bytes
  selector : Bytes
  extensions : List (Bytes × Bytes)
  priority : ℤ
  cancel : Bool
  update : Bool
  deriving DecidableEq

structure Response where
  id : ℤ
  status : ℤ
  extensions : List (Bytes × Bytes)
  deriving DecidableEq

structure Block where
  cidPrefix : Bytes
  data : Bytes
  deriving DecidableEq

structure Message where
  completeRequestList : Bool
  requests : List Request
  responses : List Response
  data : List Block
  deriving DecidableEq

def Request.default : Request := ⟨0, [], [], [], 0, false, false⟩
def Response.default : Response := ⟨0, 0, []⟩
def Message.default : Message := ⟨false, [], [], []⟩

/-! ## The wire form -/

def Request.toFields (r : Request) : List Field :=
  int32Field 1 r.id ++ bytesField 2 r.root ++ bytesField 3 r.selector ++ mapField 4 r.extensions ++
    int32Field 5 r.priority ++ boolField 6 r.cancel ++ boolField 7 r.update

def Response.toFields (r : Response) : List Field :=
  int32Field 1 r.id ++ int32Field 2 r.status ++ mapField 3 r.extensions

def Block.toFields (b : Block) : List Field := bytesField 1 b.cidPrefix ++ bytesField 2 b.data

def Message.toFields (m : Message) : List Field :=
  boolField 1 m.completeRequestList ++ m.requests.map (fun r => message 2 r.toFields) ++
    m.responses.map (fun r => message 3 r.toFields) ++ m.data.map fun b => message 4 b.toFields

def Message.body (m : Message) : Bytes := encodeFields m.toFields

def Message.byteSizeLong (m : Message) : ℕ := m.body.length

def Request.ofFields (fs : List Field) : Option Request :=
  (readMap 4 fs).map fun extensions =>
    ⟨readInt32 1 fs, lastPayload 2 fs, lastPayload 3 fs, extensions, readInt32 5 fs, readBool 6 fs,
      readBool 7 fs⟩

def Response.ofFields (fs : List Field) : Option Response :=
  (readMap 3 fs).map fun extensions => ⟨readInt32 1 fs, readInt32 2 fs, extensions⟩

def Block.ofFields (fs : List Field) : Option Block := some ⟨lastPayload 1 fs, lastPayload 2 fs⟩

def parseWith {α : Type} (ofFields : List Field → Option α) (bytes : Bytes) : Option α := do
  let fs ← readFields bytes
  ofFields fs

/-- `ParseFromArray`. -/
def Message.parse (bytes : Bytes) : Option Message := do
  let fs ← readFields bytes
  let requests ← (payloads 2 fs).mapM (parseWith Request.ofFields)
  let responses ← (payloads 3 fs).mapM (parseWith Response.ofFields)
  let data ← (payloads 4 fs).mapM (parseWith Block.ofFields)
  some ⟨readBool 1 fs, requests, responses, data⟩

/-! ## Round trip -/

structure Request.Ok (r : Request) : Prop where
  id : IsInt32 r.id
  priority : IsInt32 r.priority
  extensions : MapOk r.extensions

structure Response.Ok (r : Response) : Prop where
  id : IsInt32 r.id
  status : IsInt32 r.status
  extensions : MapOk r.extensions

/-- What a writer may have put in: the types of the fields, and keys that are text. -/
structure Message.Ok (m : Message) : Prop where
  requests : ∀ r ∈ m.requests, r.Ok
  responses : ∀ r ∈ m.responses, r.Ok

theorem Request.toFields_legal {r : Request} (h : r.Ok) : ∀ f ∈ r.toFields, f.Legal := by
  simp only [Request.toFields, List.forall_mem_append]
  exact ⟨⟨⟨⟨⟨⟨int32Field_legal (by decide) (by decide) h.id, bytesField_legal (by decide) (by decide) _⟩,
    bytesField_legal (by decide) (by decide) _⟩, mapField_legal (by decide) (by decide) _⟩,
    int32Field_legal (by decide) (by decide) h.priority⟩, boolField_legal (by decide) (by decide) _⟩,
    boolField_legal (by decide) (by decide) _⟩

theorem Response.toFields_legal {r : Response} (h : r.Ok) : ∀ f ∈ r.toFields, f.Legal := by
  simp only [Response.toFields, List.forall_mem_append]
  exact ⟨⟨int32Field_legal (by decide) (by decide) h.id,
    int32Field_legal (by decide) (by decide) h.status⟩, mapField_legal (by decide) (by decide) _⟩

theorem Block.toFields_legal (b : Block) : ∀ f ∈ b.toFields, f.Legal := by
  simp only [Block.toFields, List.forall_mem_append]
  exact ⟨bytesField_legal (by decide) (by decide) _, bytesField_legal (by decide) (by decide) _⟩

theorem Message.toFields_legal (m : Message) : ∀ f ∈ m.toFields, f.Legal := by
  simp only [Message.toFields, List.forall_mem_append]
  exact ⟨⟨⟨boolField_legal (by decide) (by decide) _, messages_legal (by decide) (by decide) _ _⟩,
    messages_legal (by decide) (by decide) _ _⟩, messages_legal (by decide) (by decide) _ _⟩

/-- The entries of a map are as small as the message around them. -/
theorem payloads_small {number : ℕ} {fs : List Field} {n : ℕ} (h : (encodeFields fs).length < n) :
    ∀ b ∈ payloads number fs, b.length < n := by
  intro b hb
  obtain ⟨f, hf, hfb⟩ := List.mem_filterMap.mp hb
  obtain ⟨k, v⟩ := f
  cases v with
  | delimited p =>
    by_cases hk : k = number
    · simp only [payloadOf, hk, if_true, Option.some.injEq] at hfb
      exact hfb ▸ Nat.lt_of_le_of_lt (payload_length_le hf) h
    · simp [payloadOf, hk] at hfb
  | _ => simp [payloadOf] at hfb

theorem Request.ofFields_toFields {r : Request} (h : r.Ok)
    (hsmall : (encodeFields r.toFields).length < 2 ^ 31) : ofFields r.toFields = some r := by
  have hmap : readMap 4 r.toFields = some r.extensions := by
    refine readMap_of_payloads h.extensions ?_ (payloads_small hsmall)
    simp [toFields, payloads_mapField]
  rw [ofFields, hmap, Option.map_some,
    readInt32_of_varints h.id (by simp [toFields, List.filterMap_append]),
    readInt32_of_varints h.priority (by simp [toFields, List.filterMap_append]),
    readBool_of_varints (b := r.cancel) (by simp [toFields, List.filterMap_append]),
    readBool_of_varints (b := r.update) (by simp [toFields, List.filterMap_append]),
    lastPayload_of_payloads (b := r.root) (by simp [toFields, payloads_mapField]),
    lastPayload_of_payloads (b := r.selector) (by simp [toFields, payloads_mapField])]

theorem Response.ofFields_toFields {r : Response} (h : r.Ok)
    (hsmall : (encodeFields r.toFields).length < 2 ^ 31) : ofFields r.toFields = some r := by
  have hmap : readMap 3 r.toFields = some r.extensions := by
    refine readMap_of_payloads h.extensions ?_ (payloads_small hsmall)
    simp [toFields, payloads_mapField]
  rw [ofFields, hmap, Option.map_some,
    readInt32_of_varints h.id (by simp [toFields, List.filterMap_append]),
    readInt32_of_varints h.status (by simp [toFields, List.filterMap_append])]

theorem Block.ofFields_toFields (b : Block) : ofFields b.toFields = some b := by
  rw [ofFields, lastPayload_of_payloads (b := b.cidPrefix) (by simp [toFields]),
    lastPayload_of_payloads (b := b.data) (by simp [toFields])]

/-- A repeated message field reads back. -/
theorem mapM_parseWith {α : Type} {toFields : α → List Field} {ofFields : List Field → Option α}
    {xs : List α} (hlegal : ∀ x ∈ xs, ∀ f ∈ toFields x, f.Legal)
    (hsmall : ∀ x ∈ xs, (encodeFields (toFields x)).length < 2 ^ 31)
    (hof : ∀ x ∈ xs, ofFields (toFields x) = some x) :
    (xs.map fun x => encodeFields (toFields x)).mapM (parseWith ofFields) = some xs := by
  induction xs with
  | nil => rfl
  | cons x xs ih =>
    have hx := readFields_of_small (hlegal x List.mem_cons_self) (hsmall x List.mem_cons_self)
    have htail := ih (fun y hy => hlegal y (List.mem_cons_of_mem x hy))
      (fun y hy => hsmall y (List.mem_cons_of_mem x hy)) fun y hy => hof y (List.mem_cons_of_mem x hy)
    simp only [List.map_cons, List.mapM_cons, parseWith, hx, Option.bind_eq_bind, Option.bind_some,
      hof x List.mem_cons_self]
    rw [htail]
    rfl

/-- **What is written is what is parsed.** -/
theorem Message.parse_body {m : Message} (h : m.Ok) (hsmall : m.byteSizeLong < 2 ^ 31) :
    parse m.body = some m := by
  have hreq : payloads 2 m.toFields = m.requests.map fun r => encodeFields r.toFields := by
    simp [toFields]
  have hresp : payloads 3 m.toFields = m.responses.map fun r => encodeFields r.toFields := by
    simp [toFields]
  have hdata : payloads 4 m.toFields = m.data.map fun b => encodeFields b.toFields := by
    simp [toFields]
  have hlt : ∀ number, ∀ b ∈ payloads number m.toFields, b.length < 2 ^ 31 := fun _ =>
    payloads_small hsmall
  have hreqSmall : ∀ r ∈ m.requests, (encodeFields r.toFields).length < 2 ^ 31 := fun r hr =>
    hlt 2 _ (hreq ▸ List.mem_map_of_mem hr)
  have hrespSmall : ∀ r ∈ m.responses, (encodeFields r.toFields).length < 2 ^ 31 := fun r hr =>
    hlt 3 _ (hresp ▸ List.mem_map_of_mem hr)
  have hdataSmall : ∀ b ∈ m.data, (encodeFields b.toFields).length < 2 ^ 31 := fun b hb =>
    hlt 4 _ (hdata ▸ List.mem_map_of_mem hb)
  rw [parse, body, readFields_of_small m.toFields_legal hsmall]
  simp only [Option.bind_eq_bind, Option.bind_some, hreq, hresp, hdata]
  rw [mapM_parseWith (fun r hr => Request.toFields_legal (h.requests r hr)) hreqSmall
      fun r hr => Request.ofFields_toFields (h.requests r hr) (hreqSmall r hr),
    mapM_parseWith (fun r hr => Response.toFields_legal (h.responses r hr)) hrespSmall
      fun r hr => Response.ofFields_toFields (h.responses r hr) (hrespSmall r hr),
    mapM_parseWith (fun b _ => Block.toFields_legal b) hdataSmall
      fun b _ => Block.ofFields_toFields b]
  simp only [Option.bind_some]
  rw [readBool_of_varints (b := m.completeRequestList) (by simp [toFields, List.filterMap_append])]

end Pb

/-! ## Builders -/

structure MessageBuilder where
  pbMsg : Pb.Message
  empty : Bool
  deriving DecidableEq

namespace MessageBuilder

def initial : MessageBuilder := ⟨.default, true⟩

def getSerializedSize (b : MessageBuilder) : ℕ := b.pbMsg.byteSizeLong

/-- `serializeProtobufMessage`: the length prefix and the body. `SerializeToArray` refuses a body
of more than `INT_MAX` bytes. -/
def serialize (b : MessageBuilder) : Option Bytes :=
  if b.pbMsg.byteSizeLong < 2 ^ 31 then
    some (Varint.encode b.pbMsg.byteSizeLong ++ b.pbMsg.body)
  else none

theorem serialize_ne_nil {b : MessageBuilder} {buffer : Bytes} (h : b.serialize = some buffer) :
    buffer ≠ [] := by
  unfold serialize at h
  split at h
  · cases h
    intro hnil
    exact Varint.encode_ne_nil _ (List.append_eq_nil_iff.mp hnil).1
  · cases h

/-- `mutable_extensions()->insert`: an entry that is already there is kept. -/
def insertExtension (es : List (Bytes × Bytes)) (e : Extension) : List (Bytes × Bytes) :=
  if es.any fun x => x.1 = e.name then es else es ++ [(e.name, e.data)]

def pbExtensions (extensions : List Extension) : List (Bytes × Bytes) :=
  extensions.foldl insertExtension []

/-- `RequestBuilder::addRequest`. The second component is false when `toBytes` fails and the call
throws, with the entry already added. -/
def addRequest (b : MessageBuilder) (id : RequestId) (rootCid : CID) (selector : Bytes)
    (extensions : List Extension) : MessageBuilder × Bool :=
  let add (r : Pb.Request) : Pb.Message := { b.pbMsg with requests := b.pbMsg.requests ++ [r] }
  match rootCid.toBytes with
  | none => ({ b with pbMsg := add { Pb.Request.default with id := id } }, false)
  | some d =>
    (⟨add ⟨id, d, selector, pbExtensions extensions, 1, false, false⟩, false⟩, true)

def addCancelRequest (b : MessageBuilder) (id : RequestId) : MessageBuilder :=
  ⟨{ b.pbMsg with
      requests := b.pbMsg.requests ++ [{ Pb.Request.default with id := id, cancel := true }] }, false⟩

def addResponse (b : MessageBuilder) (id : RequestId) (status : ResponseStatusCode)
    (extensions : List Extension) : MessageBuilder :=
  ⟨{ b.pbMsg with
      responses := b.pbMsg.responses ++ [⟨id, status.code, pbExtensions extensions⟩] }, false⟩

/-- `ResponseBuilder::addDataBlock`: the prefix is what `CID::read` consumes of the CID's bytes. The
second component is false when the call throws, with an empty entry already added. -/
def addDataBlock (b : MessageBuilder) (cid : CID) (data : Bytes) : MessageBuilder × Bool :=
  let add (x : Pb.Block) : Pb.Message := { b.pbMsg with data := b.pbMsg.data ++ [x] }
  match cid.toBytes with
  | none => ({ b with pbMsg := add ⟨[], []⟩ }, false)
  | some d =>
    match CID.read d true with
    | .error _ => ({ b with pbMsg := add ⟨[], []⟩ }, false)
    | .ok (_, rest) => (⟨add ⟨d.take (d.length - rest.length), data⟩, false⟩, true)

/-! ## Sizes -/

/-- What a response adds to a message. -/
def responseSize (id : RequestId) (status : ResponseStatusCode) (extensions : List Extension) : ℕ :=
  delimitedSize 3 (int32Size 1 id + int32Size 2 status.code +
    ((pbExtensions extensions).map (mapEntrySize 3)).sum)

/-- What a block adds to a message. -/
def blockSize (cid : CID) (data : Bytes) : ℕ :=
  delimitedSize 4 (bytesSize 1 cid.cidPrefix.length + bytesSize 2 data.length)

@[simp] theorem getSerializedSize_initial : initial.getSerializedSize = 0 := rfl

theorem getSerializedSize_addResponse (b : MessageBuilder) (id : RequestId)
    (status : ResponseStatusCode) (extensions : List Extension) :
    (b.addResponse id status extensions).getSerializedSize =
      b.getSerializedSize + responseSize id status extensions := by
  simp only [getSerializedSize, Pb.Message.byteSizeLong, Pb.Message.body, Pb.Message.toFields,
    addResponse, List.map_append, List.map_cons, List.map_nil, encodeFields_append,
    encodeFields_cons, encodeFields_nil, List.append_nil, List.length_append, message,
    encode_delimited_length, Pb.Response.toFields, int32Field_length, mapField_length, responseSize]
  omega

/-- A CID that has a byte form is added with its prefix. -/
theorem addDataBlock_of_toBytes {cid : CID} {d : Bytes} (h : cid.toBytes = some d)
    (b : MessageBuilder) (data : Bytes) :
    b.addDataBlock cid data =
      (⟨{ b.pbMsg with data := b.pbMsg.data ++ [⟨cid.cidPrefix, data⟩] }, false⟩, true) := by
  obtain ⟨hc, hd⟩ := CID.toBytes_eq h
  have hread := CID.read_cidPrefix hc cid.contentAddress.hash
  rw [← hd] at hread
  have htake : d.take (d.length - cid.contentAddress.hash.length) = cid.cidPrefix := by
    rw [hd, List.length_append, Nat.add_sub_cancel, List.take_left]
  simp only [addDataBlock, h, hread, htake]

theorem getSerializedSize_addDataBlock {cid : CID} (h : cid.toBytes.isSome = true)
    (b : MessageBuilder) (data : Bytes) :
    (b.addDataBlock cid data).1.getSerializedSize = b.getSerializedSize + blockSize cid data := by
  obtain ⟨d, hd⟩ := Option.isSome_iff_exists.mp h
  rw [addDataBlock_of_toBytes hd]
  simp only [getSerializedSize, Pb.Message.byteSizeLong, Pb.Message.body, Pb.Message.toFields,
    List.map_append, List.map_cons, List.map_nil, encodeFields_append, encodeFields_cons,
    encodeFields_nil, List.append_nil, List.length_append, message, encode_delimited_length,
    Pb.Block.toFields, bytesField_length, blockSize]
  omega

end MessageBuilder

/-! ## Parser -/

inductive ParseError where
  | messageParseError
  | rootCid
  | blockCid (e : CID.ReadError)
  /-- `IPFSHasher::calculate` has no method for the hash type and throws -/
  | unknownHash
  deriving DecidableEq

def parseExtensions (es : List (Bytes × Bytes)) : List Extension := es.map fun e => ⟨e.1, e.2⟩

def parseRequest (src : Pb.Request) : Except ParseError Message.Request :=
  if src.cancel then .ok { Message.Request.default with id := src.id, cancel := true }
  else
    match CID.fromBytes src.root with
    | none => .error .rootCid
    | some cid =>
      .ok ⟨src.id, cid, src.selector, parseExtensions src.extensions, src.priority, false⟩

def parseResponse (src : Pb.Response) : Except ParseError Message.Response :=
  match extractStatusCode src.status with
  | none => .error .messageParseError
  | some status => .ok ⟨src.id, status, parseExtensions src.extensions⟩

def parseBlock (H : Hasher) (src : Pb.Block) : Except ParseError Block :=
  match CID.read src.cidPrefix true with
  | .error e => .error (.blockCid e)
  | .ok (cid, rest) =>
    if rest ≠ [] then .error .messageParseError
    else
      match H.calculate cid.contentAddress.type src.data with
      | none => .error .unknownHash
      | some address => .ok ({ cid with contentAddress := address }, src.data)

def parsePbMessage (H : Hasher) (m : Pb.Message) : Except ParseError Message := do
  let requests ← m.requests.mapM parseRequest
  let responses ← m.responses.mapM parseResponse
  let data ← m.data.mapM (parseBlock H)
  .ok ⟨m.completeRequestList, requests, responses, data⟩

def parseMessage (H : Hasher) (bytes : Bytes) : Except ParseError Message :=
  match Pb.Message.parse bytes with
  | none => .error .messageParseError
  | some m => parsePbMessage H m

end IpfsLite.Graphsync
