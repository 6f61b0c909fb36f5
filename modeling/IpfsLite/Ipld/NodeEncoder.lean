import IpfsLite.Codec.CborEncodeStream
import IpfsLite.Foundations.Schema

/-! # The node encoder

`IPLDNodeEncoderPB` (`ipld/impl/ipld_node_encoder_pb.cpp`) writes a node by hand: it computes every length,
allocates a buffer of that size and writes into it. `PBNode` is the class that is generated from
`ipld_node.proto`. The order of `std::map` and `std::set` is that of `StringKey`. -/
namespace IpfsLite.Ipld
set_option autoImplicit false

open Codec (StringKey)
open Wire

structure IPLDLink where
  cid : CID
  name : Bytes
  size : UInt64
  deriving DecidableEq

abbrev Links := OrdMap StringKey IPLDLink

abbrev Destinations := OrdMap StringKey Unit

/-! ## `ArrayOutputStream` -/

/-- What is in a zeroed buffer of `size` bytes behind the stream. The stream takes the size as an `int` and drops
what does not fit. -/
def arrayOutput (size : ℕ) (written : Bytes) : Bytes :=
  let capacity := (int32OfBits size).toNat
  written.take capacity ++ List.replicate (size - min capacity written.length) 0

/-- `WriteRaw` takes the size as an `int`, too. A negative one has no defined behaviour: nothing is written. -/
def writeRaw (data : Bytes) : Bytes := data.take (int32OfBits data.length).toNat

theorem int32OfBits_small {n : ℕ} (h : n < 2 ^ 31) : int32OfBits n = n := by
  have hmod : n % 2 ^ 32 = n := Nat.mod_eq_of_lt (by omega)
  rw [int32OfBits, hmod, if_pos h]

theorem int32OfBits_negative {n : ℕ} (hlo : 2 ^ 31 ≤ n) (hhi : n < 2 ^ 32) : (int32OfBits n).toNat = 0 := by
  have hmod : n % 2 ^ 32 = n := Nat.mod_eq_of_lt hhi
  rw [int32OfBits, hmod, if_neg (by omega)]
  omega

theorem arrayOutput_small {written : Bytes} (h : written.length < 2 ^ 31) :
    arrayOutput written.length written = written := by
  simp [arrayOutput, int32OfBits_small h]

theorem arrayOutput_negative {size : ℕ} (hlo : 2 ^ 31 ≤ size) (hhi : size < 2 ^ 32) (written : Bytes) :
    arrayOutput size written = List.replicate size 0 := by
  simp [arrayOutput, int32OfBits_negative hlo hhi]

theorem arrayOutput_length (size : ℕ) (written : Bytes) : (arrayOutput size written).length = size := by
  have hle : (int32OfBits size).toNat ≤ size := by
    unfold int32OfBits
    split <;> omega
  rw [arrayOutput, List.length_append, List.length_take, List.length_replicate]
  omega

theorem writeRaw_small {data : Bytes} (h : data.length < 2 ^ 31) : writeRaw data = data := by
  simp [writeRaw, int32OfBits_small h]

/-! ## `IPLDNodeEncoderPB` -/

inductive PBFieldType where
  | varint
  | bits64
  | lengthDelimited
  | startGroup
  | endGroup
  | bits32

def PBFieldType.code : PBFieldType → UInt8
  | varint => 0
  | bits64 => 1
  | lengthDelimited => 2
  | startGroup => 3
  | endGroup => 4
  | bits32 => 5

inductive PBLinkOrder where
  | hash
  | name
  | size

def PBLinkOrder.code : PBLinkOrder → UInt8
  | hash => 1
  | name => 2
  | size => 3

inductive PBNodeOrder where
  | data
  | links
  | destinations

def PBNodeOrder.code : PBNodeOrder → UInt8
  | data => 1
  | links => 2
  | destinations => 3

def createTag (type : PBFieldType) (order : UInt8) : UInt8 := (order <<< 3) ||| type.code

/-- `WriteTag`. -/
def writeTag (type : PBFieldType) (order : UInt8) : Bytes := Varint.encode (createTag type order).toNat

/-- A tag, a length and the bytes. -/
def writeDelimited (order : UInt8) (data : Bytes) : Bytes :=
  writeTag .lengthDelimited order ++ Varint.encode data.length ++ writeRaw data

def getLinkLengthPB (name : Bytes) (link : IPLDLink) : ℕ :=
  let cidBytesSize := link.cid.contentAddress.toBuffer.length
  cidBytesSize + varintSize cidBytesSize + name.length + varintSize name.length + varintSize link.size.toNat + 3

def getContentLengthPB (content : Bytes) : ℕ :=
  if content = [] then 0 else 1 + varintSize content.length + content.length

def getDestinationsLengthPB (destinations : Destinations) : ℕ :=
  (destinations.keys.map fun d => 1 + varintSize d.str.length + d.str.length).sum

def linksSize (links : Links) : List ℕ := links.entries.map fun e => getLinkLengthPB e.1.str e.2

def linksContentSize (links : Links) : ℕ := (linksSize links).sum

def linksHeadersSize (links : Links) : ℕ := ((linksSize links).map fun n => 1 + varintSize n).sum

/-- One turn of the loop over the links. -/
def writeLink (length : ℕ) (name : Bytes) (link : IPLDLink) : Bytes :=
  writeTag .lengthDelimited PBNodeOrder.links.code ++ Varint.encode length ++
    writeDelimited PBLinkOrder.hash.code link.cid.contentAddress.toBuffer ++
    writeDelimited PBLinkOrder.name.code name ++
    writeTag .varint PBLinkOrder.size.code ++ Varint.encode link.size.toNat

/-- The loop: the lengths are taken by index, and `at` never throws, see `linksSize_at`. -/
def writeLinks (links : Links) : Bytes :=
  links.entries.zipIdx.flatMap fun e => writeLink ((linksSize links).getD e.2 0) e.1.1.str e.1.2

def serializeLinks (links : Links) : Bytes :=
  if 0 < linksContentSize links then arrayOutput (linksContentSize links + linksHeadersSize links) (writeLinks links)
  else []

def writeContent (content : Bytes) : Bytes := writeDelimited PBNodeOrder.data.code content

def serializeContent (content : Bytes) : Bytes :=
  let pbLength := getContentLengthPB content
  if 0 < pbLength then arrayOutput pbLength (writeContent content) else List.replicate pbLength 0

def writeDestinations (destinations : Destinations) : Bytes :=
  destinations.keys.flatMap fun d => writeDelimited PBNodeOrder.destinations.code d.str

def serializeDestinations (destinations : Destinations) : Bytes :=
  let pbLength := getDestinationsLengthPB destinations
  if 0 < pbLength then arrayOutput pbLength (writeDestinations destinations) else List.replicate pbLength 0

def encode (content : Bytes) (links : Links) (destinations : Destinations) : Bytes :=
  serializeLinks links ++ serializeContent content ++ serializeDestinations destinations

/-! ## `PBNode` -/

structure PBLink where
  hash : Bytes
  name : Bytes
  tsize : UInt64
  deriving DecidableEq

structure PBNode where
  links : List PBLink
  data : Bytes
  destinations : List Bytes
  deriving DecidableEq

def PBLink.ofFields (fs : List Field) : PBLink :=
  ⟨lastPayload 1 fs, lastPayload 2 fs, UInt64.ofNat (lastVarint 3 fs)⟩

/-- `ParseFromArray`: proto2 strings are any bytes, and a message has less than 2 GiB. -/
def PBNode.parse (bytes : Bytes) : Option PBNode :=
  if bytes.length < 2 ^ 31 then do
    let fs ← readFields bytes
    let links ← (payloads 2 fs).mapM readFields
    some ⟨links.map PBLink.ofFields, lastPayload 1 fs, payloads 3 fs⟩
  else none

/-! ## The fields of a node -/

def linkFields (name : Bytes) (link : IPLDLink) : List Field :=
  [⟨1, .delimited link.cid.contentAddress.toBuffer⟩, ⟨2, .delimited name⟩, ⟨3, .varint link.size.toNat⟩]

def linksFields (links : Links) : List Field := links.entries.map fun e => message 2 (linkFields e.1.str e.2)

def destinationsFields (destinations : Destinations) : List Field :=
  destinations.keys.map fun d => ⟨3, .delimited d.str⟩

def nodeFields (content : Bytes) (links : Links) (destinations : Destinations) : List Field :=
  linksFields links ++ bytesField 1 content ++ destinationsFields destinations

/-- The size of the node in the protobuf wire format. -/
def encodedSize (content : Bytes) (links : Links) (destinations : Destinations) : ℕ :=
  (links.entries.map fun e => delimitedSize 2 (delimitedSize 1 e.2.cid.contentAddress.toBuffer.length +
    delimitedSize 2 e.1.str.length + (1 + varintSize e.2.size.toNat))).sum +
  bytesSize 1 content.length + (destinations.keys.map fun d => delimitedSize 3 d.str.length).sum

theorem writeTag_links : writeTag .lengthDelimited PBNodeOrder.links.code = tag 2 2 := by decide
theorem writeTag_size : writeTag .varint PBLinkOrder.size.code = tag 3 0 := by decide

theorem delimitedSize_eq {number : ℕ} (h : varintSize (number * 8 + 2) = 1) (n : ℕ) :
    delimitedSize number n = 1 + varintSize n + n := by rw [delimitedSize, h]

theorem delimitedSize_one (n : ℕ) : delimitedSize 1 n = 1 + varintSize n + n := delimitedSize_eq (by decide) n
theorem delimitedSize_two (n : ℕ) : delimitedSize 2 n = 1 + varintSize n + n := delimitedSize_eq (by decide) n
theorem delimitedSize_three (n : ℕ) : delimitedSize 3 n = 1 + varintSize n + n := delimitedSize_eq (by decide) n

theorem writeDelimited_eq {order : UInt8} (number : ℕ) (htag : writeTag .lengthDelimited order = tag number 2)
    {data : Bytes} (h : data.length < 2 ^ 31) : writeDelimited order data = Field.encode ⟨number, .delimited data⟩ := by
  rw [writeDelimited, htag, writeRaw_small h, List.append_assoc]
  rfl

/-! ## Links -/

section
variable (name : Bytes) (link : IPLDLink)

theorem linkFields_length : (encodeFields (linkFields name link)).length =
    delimitedSize 1 link.cid.contentAddress.toBuffer.length + delimitedSize 2 name.length +
      (1 + varintSize link.size.toNat) := by
  have htag : varintSize (3 * 8) = 1 := by decide
  simp [linkFields, encode_delimited_length, encode_varint_length, htag, Nat.add_assoc]

theorem getLinkLengthPB_eq : getLinkLengthPB name link = (encodeFields (linkFields name link)).length := by
  rw [linkFields_length, getLinkLengthPB, delimitedSize_one, delimitedSize_two]
  omega

theorem message_length : (message 2 (linkFields name link)).encode.length =
    1 + varintSize (getLinkLengthPB name link) + getLinkLengthPB name link := by
  rw [message, encode_delimited_length, delimitedSize_two, getLinkLengthPB_eq]

theorem writeLink_eq {name : Bytes} {link : IPLDLink} (h : (encodeFields (linkFields name link)).length < 2 ^ 31) :
    writeLink (getLinkLengthPB name link) name link = (message 2 (linkFields name link)).encode := by
  have hmem (b : Bytes) (number : ℕ) (hb : (⟨number, .delimited b⟩ : Field) ∈ linkFields name link) :
      b.length < 2 ^ 31 := Nat.lt_of_le_of_lt (payload_length_le hb) h
  have htag : writeTag .lengthDelimited PBLinkOrder.hash.code = tag 1 2 := by decide
  have hhash := writeDelimited_eq 1 htag
    (hmem link.cid.contentAddress.toBuffer 1 (by simp [linkFields]))
  have htag : writeTag .lengthDelimited PBLinkOrder.name.code = tag 2 2 := by decide
  have hname := writeDelimited_eq 2 htag
    (hmem name 2 (by simp [linkFields]))
  rw [writeLink, writeTag_links, writeTag_size, hhash, hname, getLinkLengthPB_eq, message, Field.encode]
  simp [WireValue.wireType, WireValue.payload, linkFields, Field.encode]

end

/-- The index of the loop is that of the link. -/
theorem zipIdx_getD {α β : Type} (es : List α) (f : α → ℕ) (g : ℕ → α → List β) :
    (es.zipIdx.flatMap fun e => g ((es.map f).getD e.2 0) e.1) = es.flatMap fun a => g (f a) a := by
  have hindex : ∀ e ∈ es.zipIdx, g ((es.map f).getD e.2 0) e.1 = g (f e.1) e.1 := by
    intro e he
    have hget : es[e.2]? = some e.1 := List.mem_zipIdx_iff_getElem?.mp he
    rw [List.getD_eq_getElem?_getD, List.getElem?_map, hget]
    rfl
  have hfst : es = es.zipIdx.map Prod.fst := (List.zipIdx_map_fst 0 es).symm
  rw [List.flatMap_congr hindex]
  conv_rhs => rw [hfst]
  rw [List.flatMap_map]

theorem writeLinks_flatMap (links : Links) :
    writeLinks links = links.entries.flatMap fun e => writeLink (getLinkLengthPB e.1.str e.2) e.1.str e.2 :=
  zipIdx_getD links.entries (fun e => getLinkLengthPB e.1.str e.2) fun n e => writeLink n e.1.str e.2

theorem linksFields_length (links : Links) :
    (encodeFields (linksFields links)).length = linksContentSize links + linksHeadersSize links := by
  rw [linksContentSize, linksHeadersSize, linksSize, linksFields, encodeFields_length, List.map_map, List.map_map]
  induction links.entries with
  | nil => rfl
  | cons e es ih =>
    simp only [List.map_cons, List.sum_cons, Function.comp_apply, message_length] at ih ⊢
    omega

theorem linksFields_encode {links : Links} (h : (encodeFields (linksFields links)).length < 2 ^ 31) :
    writeLinks links = encodeFields (linksFields links) := by
  rw [writeLinks_flatMap, linksFields, encodeFields, List.flatMap_map]
  refine List.flatMap_congr fun e he => writeLink_eq ?_
  have hmem : message 2 (linkFields e.1.str e.2) ∈ linksFields links := List.mem_map_of_mem he
  exact Nat.lt_of_le_of_lt (payload_length_le hmem) h

/-- Every link takes some bytes. -/
theorem entries_nil {links : Links} (h : ¬ 0 < linksContentSize links) : links.entries = [] := by
  rcases hentries : links.entries with _ | ⟨e, es⟩
  · rfl
  · refine absurd ?_ h
    rw [linksContentSize, linksSize, hentries, List.map_cons, List.sum_cons, getLinkLengthPB]
    omega

theorem serializeLinks_whole {links : Links} (h : (encodeFields (linksFields links)).length < 2 ^ 31) :
    serializeLinks links = writeLinks links := by
  have hwrite := linksFields_encode h
  by_cases hpos : 0 < linksContentSize links
  · rw [serializeLinks, if_pos hpos, ← linksFields_length, ← hwrite]
    exact arrayOutput_small (hwrite ▸ h)
  · rw [serializeLinks, if_neg hpos, writeLinks, entries_nil hpos]
    rfl

theorem serializeLinks_length (links : Links) :
    (serializeLinks links).length = (encodeFields (linksFields links)).length := by
  rw [linksFields_length]
  by_cases hpos : 0 < linksContentSize links
  · rw [serializeLinks, if_pos hpos, arrayOutput_length]
  · rw [serializeLinks, if_neg hpos, linksContentSize, linksHeadersSize, linksSize, entries_nil hpos]
    rfl

/-! ## Content and destinations -/

theorem getContentLengthPB_eq (content : Bytes) :
    getContentLengthPB content = (encodeFields (bytesField 1 content)).length := by
  rw [bytesField_length, getContentLengthPB, bytesSize, delimitedSize_one]
  by_cases h : content = []
  · simp [h]
  · rw [if_neg h, if_neg (mt List.length_eq_zero_iff.mp h)]

theorem writeContent_encode {content : Bytes} (hne : content ≠ [])
    (h : (encodeFields (bytesField 1 content)).length < 2 ^ 31) :
    writeContent content = encodeFields (bytesField 1 content) := by
  have hmem : (⟨1, .delimited content⟩ : Field) ∈ bytesField 1 content := by simp [bytesField, hne]
  rw [writeContent, writeDelimited_eq 1 (by decide) (Nat.lt_of_le_of_lt (payload_length_le hmem) h)]
  simp [bytesField, hne]

theorem serializeContent_encode {content : Bytes} (h : (encodeFields (bytesField 1 content)).length < 2 ^ 31) :
    serializeContent content = encodeFields (bytesField 1 content) := by
  by_cases hnil : content = []
  · simp [serializeContent, getContentLengthPB, bytesField, hnil]
  · have hpos : 0 < getContentLengthPB content := by
      rw [getContentLengthPB, if_neg hnil]
      omega
    simp only [serializeContent, if_pos hpos]
    rw [getContentLengthPB_eq, writeContent_encode hnil h]
    exact arrayOutput_small h

theorem serializeContent_length (content : Bytes) :
    (serializeContent content).length = (encodeFields (bytesField 1 content)).length := by
  rw [← getContentLengthPB_eq]
  unfold serializeContent
  by_cases hpos : 0 < getContentLengthPB content
  · simp only [if_pos hpos, arrayOutput_length]
  · simp only [if_neg hpos, List.length_replicate]

theorem getDestinationsLengthPB_eq (destinations : Destinations) :
    getDestinationsLengthPB destinations = (encodeFields (destinationsFields destinations)).length := by
  rw [getDestinationsLengthPB, destinationsFields, encodeFields_length, List.map_map]
  refine congrArg List.sum (List.map_congr_left fun d _ => ?_)
  rw [Function.comp_apply, encode_delimited_length, delimitedSize_three]

theorem writeDestinations_encode {destinations : Destinations}
    (h : (encodeFields (destinationsFields destinations)).length < 2 ^ 31) :
    writeDestinations destinations = encodeFields (destinationsFields destinations) := by
  rw [writeDestinations, destinationsFields, encodeFields, List.flatMap_map]
  refine List.flatMap_congr fun d hd => writeDelimited_eq 3 (by decide) ?_
  have hmem : (⟨3, .delimited d.str⟩ : Field) ∈ destinationsFields destinations := List.mem_map_of_mem hd
  exact Nat.lt_of_le_of_lt (payload_length_le hmem) h

theorem serializeDestinations_encode {destinations : Destinations}
    (h : (encodeFields (destinationsFields destinations)).length < 2 ^ 31) :
    serializeDestinations destinations = encodeFields (destinationsFields destinations) := by
  have hlength := getDestinationsLengthPB_eq destinations
  by_cases hpos : 0 < getDestinationsLengthPB destinations
  · simp only [serializeDestinations, if_pos hpos]
    rw [hlength, writeDestinations_encode h]
    exact arrayOutput_small h
  · have hzero : getDestinationsLengthPB destinations = 0 := Nat.eq_zero_of_not_pos hpos
    simp only [serializeDestinations, hzero, List.replicate_zero]
    exact (List.length_eq_zero_iff.mp (hlength.symm.trans hzero)).symm

theorem serializeDestinations_length (destinations : Destinations) :
    (serializeDestinations destinations).length = (encodeFields (destinationsFields destinations)).length := by
  rw [← getDestinationsLengthPB_eq]
  unfold serializeDestinations
  by_cases hpos : 0 < getDestinationsLengthPB destinations
  · simp only [if_pos hpos, arrayOutput_length]
  · simp only [if_neg hpos, List.length_replicate]

/-! ## The node -/

section
variable (content : Bytes) (links : Links) (destinations : Destinations)

theorem nodeFields_length :
    (encodeFields (nodeFields content links destinations)).length = encodedSize content links destinations := by
  have hlinks : (encodeFields (linksFields links)).length = (links.entries.map fun e => delimitedSize 2
      (delimitedSize 1 e.2.cid.contentAddress.toBuffer.length + delimitedSize 2 e.1.str.length +
        (1 + varintSize e.2.size.toNat))).sum := by
    rw [linksFields, encodeFields_length, List.map_map]
    refine congrArg List.sum (List.map_congr_left fun e _ => ?_)
    rw [Function.comp_apply, message, encode_delimited_length, linkFields_length]
  have hdestinations : (encodeFields (destinationsFields destinations)).length =
      (destinations.keys.map fun d => delimitedSize 3 d.str.length).sum := by
    rw [destinationsFields, encodeFields_length, List.map_map]
    exact congrArg List.sum (List.map_congr_left fun d _ => encode_delimited_length 3 d.str)
  rw [nodeFields, encodeFields_append, encodeFields_append, List.length_append, List.length_append, hlinks,
    bytesField_length, hdestinations, encodedSize]

theorem nodeFields_legal : ∀ f ∈ nodeFields content links destinations, f.Legal := by
  simp only [nodeFields, List.forall_mem_append]
  refine ⟨⟨messages_legal (by decide) (by decide) _ _, bytesField_legal (by decide) (by decide) _⟩, fun f hf => ?_⟩
  obtain ⟨d, -, rfl⟩ := List.mem_map.mp hf
  exact ⟨Nat.succ_pos 2, show 3 < 2 ^ 29 by decide, trivial⟩

theorem linkFields_legal (name : Bytes) (link : IPLDLink) : ∀ f ∈ linkFields name link, f.Legal := by
  simp only [linkFields, List.forall_mem_cons, List.not_mem_nil, false_implies, implies_true, and_true]
  exact ⟨⟨Nat.succ_pos 0, show 1 < 2 ^ 29 by decide, trivial⟩, ⟨Nat.succ_pos 1, show 2 < 2 ^ 29 by decide, trivial⟩,
    ⟨Nat.succ_pos 2, show 3 < 2 ^ 29 by decide, link.size.toNat_lt⟩⟩

/-- What the parser is to return. -/
def pbNode : PBNode :=
  ⟨links.entries.map fun e => ⟨e.2.cid.contentAddress.toBuffer, e.1.str, e.2.size⟩, content,
    destinations.keys.map StringKey.str⟩

end

variable {content : Bytes} {links : Links} {destinations : Destinations}

theorem encode_eq (h : encodedSize content links destinations < 2 ^ 31) :
    encode content links destinations = encodeFields (nodeFields content links destinations) := by
  rw [← nodeFields_length] at h
  simp only [nodeFields, encodeFields_append, List.length_append] at h ⊢
  rw [encode, serializeLinks_whole (by omega), linksFields_encode (by omega), serializeContent_encode (by omega),
    serializeDestinations_encode (by omega)]

theorem encode_length (content : Bytes) (links : Links) (destinations : Destinations) :
    (encode content links destinations).length = encodedSize content links destinations := by
  rw [← nodeFields_length, nodeFields, encode]
  simp only [encodeFields_append, List.length_append, serializeLinks_length, serializeContent_length,
    serializeDestinations_length]

theorem mapM_readFields {fss : List (List Field)} (hlegal : ∀ fs ∈ fss, ∀ f ∈ fs, f.Legal)
    (hsmall : ∀ fs ∈ fss, (encodeFields fs).length < 2 ^ 31) : (fss.map encodeFields).mapM readFields = some fss := by
  induction fss with
  | nil => rfl
  | cons fs fss ih =>
    have hhead := readFields_of_small (hlegal fs List.mem_cons_self) (hsmall fs List.mem_cons_self)
    have htail := ih (fun gs hgs => hlegal gs (List.mem_cons_of_mem fs hgs))
      fun gs hgs => hsmall gs (List.mem_cons_of_mem fs hgs)
    simp only [List.map_cons, List.mapM_cons, hhead, htail, Option.bind_eq_bind, Option.bind_some]
    rfl

theorem payloads_destinations (number : ℕ) (destinations : Destinations) :
    payloads number (destinationsFields destinations) =
      if number = 3 then destinations.keys.map StringKey.str else [] := by
  by_cases h : number = 3
  · simp [payloads, destinationsFields, List.filterMap_map, payloadOf, Function.comp_def, h]
  · simp [payloads, destinationsFields, List.filterMap_map, payloadOf, Function.comp_def, h, Ne.symm h]

theorem ofFields_linkFields (name : Bytes) (link : IPLDLink) :
    PBLink.ofFields (linkFields name link) = ⟨link.cid.contentAddress.toBuffer, name, link.size⟩ := by
  have htsize : UInt64.ofNat (lastVarint 3 (linkFields name link)) = link.size := UInt64.ofNat_toNat
  rw [PBLink.ofFields, htsize]
  rfl

theorem parse_nodeFields (h : encodedSize content links destinations < 2 ^ 31) :
    PBNode.parse (encodeFields (nodeFields content links destinations)) = some (pbNode content links destinations) := by
  have hlinks : payloads 2 (nodeFields content links destinations) =
      (links.entries.map fun e => linkFields e.1.str e.2).map encodeFields := by
    rw [List.map_map, nodeFields, linksFields]
    simp [payloads_destinations, Function.comp_def]
  have hdata : payloads 1 (nodeFields content links destinations) = if content ≠ [] then [content] else [] := by
    rw [nodeFields, linksFields]
    simp [payloads_destinations]
  have hdestinations : payloads 3 (nodeFields content links destinations) = destinations.keys.map StringKey.str := by
    rw [nodeFields, linksFields]
    simp [payloads_destinations]
  rw [← nodeFields_length] at h
  have hread : ((links.entries.map fun e => linkFields e.1.str e.2).map encodeFields).mapM readFields =
      some (links.entries.map fun e => linkFields e.1.str e.2) := by
    refine mapM_readFields (fun fs hfs => ?_) fun fs hfs => ?_
    · obtain ⟨e, -, rfl⟩ := List.mem_map.mp hfs
      exact linkFields_legal _ _
    · obtain ⟨e, he, rfl⟩ := List.mem_map.mp hfs
      have hmem : message 2 (linkFields e.1.str e.2) ∈ nodeFields content links destinations := by
        rw [nodeFields, linksFields, List.append_assoc]
        exact List.mem_append_left _ (List.mem_map_of_mem he)
      exact Nat.lt_of_le_of_lt (payload_length_le hmem) h
  rw [PBNode.parse, if_pos h, readFields_of_small (nodeFields_legal _ _ _) h]
  simp only [Option.bind_eq_bind, Option.bind_some, hlinks, hread, hdestinations, lastPayload_of_payloads hdata]
  rw [List.map_map, pbNode, List.map_congr_left fun e _ => ofFields_linkFields e.1.str e.2]

/-! ## The precomputed lengths -/

/-- Every length is that of what is written, no buffer cuts a write off or stays padded, and the parser reads back
what was given. -/
structure EncodedExactly (content : Bytes) (links : Links) (destinations : Destinations) : Prop where
  links_length : (writeLinks links).length = linksContentSize links + linksHeadersSize links
  links_whole : serializeLinks links = writeLinks links
  content_length : content ≠ [] → (writeContent content).length = getContentLengthPB content
  content_whole : serializeContent content = if content = [] then [] else writeContent content
  destinations_length : (writeDestinations destinations).length = getDestinationsLengthPB destinations
  destinations_whole : serializeDestinations destinations = writeDestinations destinations
  parsed : PBNode.parse (encode content links destinations) = some (pbNode content links destinations)

theorem encodedExactly_of_small (h : encodedSize content links destinations < 2 ^ 31) :
    EncodedExactly content links destinations := by
  have hparts := h
  rw [← nodeFields_length, nodeFields] at hparts
  simp only [encodeFields_append, List.length_append] at hparts
  have hlinks : (encodeFields (linksFields links)).length < 2 ^ 31 := by omega
  have hcontent : (encodeFields (bytesField 1 content)).length < 2 ^ 31 := by omega
  have hdestinations : (encodeFields (destinationsFields destinations)).length < 2 ^ 31 := by omega
  refine ⟨?_, serializeLinks_whole hlinks, fun hne => ?_, ?_, ?_, ?_, ?_⟩
  · rw [linksFields_encode hlinks, linksFields_length]
  · rw [writeContent_encode hne hcontent, getContentLengthPB_eq]
  · rw [serializeContent_encode hcontent]
    by_cases hnil : content = []
    · simp [bytesField, hnil]
    · rw [if_neg hnil, writeContent_encode hnil hcontent]
  · rw [writeDestinations_encode hdestinations, getDestinationsLengthPB_eq]
  · rw [serializeDestinations_encode hdestinations, writeDestinations_encode hdestinations]
  · rw [encode_eq h, parse_nodeFields h]

theorem small_of_parse {node : PBNode} (h : PBNode.parse (encode content links destinations) = some node) :
    encodedSize content links destinations < 2 ^ 31 := by
  rw [← encode_length]
  by_contra hlarge
  rw [PBNode.parse, if_neg hlarge] at h
  exact Option.some_ne_none node h.symm

/-- **The precomputed lengths are exact for a node of less than 2 GiB.** -/
theorem encodedExactly_iff (content : Bytes) (links : Links) (destinations : Destinations) :
    EncodedExactly content links destinations ↔ encodedSize content links destinations < 2 ^ 31 :=
  ⟨fun h => small_of_parse h.parsed, encodedExactly_of_small⟩

/-- Two destinations of 1 GiB. -/
def twoDestinations : Destinations :=
  (OrdMap.empty.insert ⟨List.replicate (2 ^ 30) 0x61⟩ ()).insert ⟨List.replicate (2 ^ 30) 0x62⟩ ()

theorem twoDestinations_length : getDestinationsLengthPB twoDestinations = 2 ^ 31 + 12 := by
  have hnew : (OrdMap.empty.insert (⟨List.replicate (2 ^ 30) 0x61⟩ : StringKey) ()).contains
      ⟨List.replicate (2 ^ 30) 0x62⟩ = false := by
    have hne : (⟨List.replicate (2 ^ 30) 0x62⟩ : StringKey) ≠ ⟨List.replicate (2 ^ 30) 0x61⟩ := by
      rw [ne_eq, StringKey.mk.injEq, List.replicate_inj]
      exact fun h => absurd h.2 (by decide)
    rw [OrdMap.contains_insert, OrdMap.contains_empty, Bool.or_eq_false_iff]
    exact ⟨decide_eq_false hne, rfl⟩
  have hkeys : twoDestinations.keys.Perm [⟨List.replicate (2 ^ 30) 0x62⟩, ⟨List.replicate (2 ^ 30) 0x61⟩] :=
    OrdMap.keys_insert_perm hnew ()
  have hvarint : varintSize (2 ^ 30) = 5 := by decide +kernel
  rw [getDestinationsLengthPB, (hkeys.map _).sum_eq]
  simp only [List.map_cons, List.map_nil, List.sum_cons, List.sum_nil, List.length_replicate, hvarint]
  omega

/-- The buffer stays zeroed: its size is negative as an `int`. -/
theorem twoDestinations_dropped : serializeDestinations twoDestinations = List.replicate (2 ^ 31 + 12) 0 ∧
    ¬ EncodedExactly [] .empty twoDestinations := by
  have hlength := twoDestinations_length
  refine ⟨?_, fun h => ?_⟩
  · simp only [serializeDestinations, hlength]
    rw [if_pos (by omega)]
    exact arrayOutput_negative (by omega) (by omega) _
  · have hsmall := small_of_parse h.parsed
    rw [← encode_length, encode, List.length_append, serializeDestinations_length, ← getDestinationsLengthPB_eq,
      hlength] at hsmall
    omega

end IpfsLite.Ipld
