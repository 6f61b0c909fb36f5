import IpfsLite.Graphsync.ReceivedMessages

/-! # The wire round trip

What is added to a request builder or to a response builder, serialized and parsed. A block's CID does not
travel: its prefix does, and the receiver hashes the data again. -/
namespace IpfsLite.Graphsync
set_option autoImplicit false

open Fallible
open Wire

/-- The calls of the builders: a request builder takes the first two, a response builder the others. -/
inductive Added where
  | request (id : RequestId) (rootCid : CID) (selector : Bytes) (extensions : List Extension)
  | cancel (id : RequestId)
  | response (id : RequestId) (status : ResponseStatusCode) (extensions : List Extension)
  | block (cid : CID) (data : Bytes)
  deriving DecidableEq

def MessageBuilder.add (b : MessageBuilder) : Added → MessageBuilder
  | .request id rootCid selector extensions => (b.addRequest id rootCid selector extensions).1
  | .cancel id => b.addCancelRequest id
  | .response id status extensions => b.addResponse id status extensions
  | .block cid data => (b.addDataBlock cid data).1

namespace Added

/-- The names are distinct text. -/
def Named (extensions : List Extension) : Prop :=
  (extensions.map Extension.name).Nodup ∧ ∀ e ∈ extensions, validUtf8 e.name = true

/-- 32-bit ids, CIDs with a byte form, statuses that have a wire code, and blocks whose hash is that of the data. -/
def Ok (H : Hasher) : Added → Prop
  | request id rootCid _ extensions => IsInt32 id ∧ rootCid.toBytes.isSome = true ∧ Named extensions
  | cancel id => IsInt32 id
  | response id status extensions => IsInt32 id ∧ 0 < status.code ∧ Named extensions
  | block cid data => cid.toBytes.isSome = true ∧ H.calculate cid.contentAddress.type data = some cid.contentAddress

/-! ## What the parser is to return -/

def sentRequest : Added → Option Message.Request
  | request id rootCid selector extensions => some ⟨id, rootCid, selector, extensions, 1, false⟩
  | cancel id => some { Message.Request.default with id := id, cancel := true }
  | _ => none

def sentResponse : Added → Option Message.Response
  | response id status extensions => some ⟨id, status, extensions⟩
  | _ => none

def sentBlock : Added → Option Block
  | block cid data => some (cid, data)
  | _ => none

/-! ## What the builder holds -/

def pbRequest : Added → Option Pb.Request
  | request id rootCid selector extensions =>
    some ⟨id, rootCid.toBytes.getD [], selector, MessageBuilder.pbExtensions extensions, 1, false, false⟩
  | cancel id => some { Pb.Request.default with id := id, cancel := true }
  | _ => none

def pbResponse : Added → Option Pb.Response
  | response id status extensions => some ⟨id, status.code, MessageBuilder.pbExtensions extensions⟩
  | _ => none

def pbBlock : Added → Option Pb.Block
  | block cid data => some ⟨cid.cidPrefix, data⟩
  | _ => none

end Added

variable {H : Hasher}

theorem add_pbMsg {entry : Added} (h : entry.Ok H) (b : MessageBuilder) : (b.add entry).pbMsg =
    ⟨b.pbMsg.completeRequestList, b.pbMsg.requests ++ entry.pbRequest.toList,
      b.pbMsg.responses ++ entry.pbResponse.toList, b.pbMsg.data ++ entry.pbBlock.toList⟩ := by
  cases entry with
  | request id rootCid selector extensions =>
    obtain ⟨d, hd⟩ := Option.isSome_iff_exists.mp h.2.1
    simp [MessageBuilder.add, MessageBuilder.addRequest, hd, Added.pbRequest, Added.pbResponse, Added.pbBlock]
  | cancel id => simp [MessageBuilder.add, MessageBuilder.addCancelRequest, Added.pbRequest, Added.pbResponse, Added.pbBlock]
  | response id status extensions =>
    simp [MessageBuilder.add, MessageBuilder.addResponse, Added.pbRequest, Added.pbResponse, Added.pbBlock]
  | block cid data =>
    obtain ⟨d, hd⟩ := Option.isSome_iff_exists.mp h.1
    simp [MessageBuilder.add, MessageBuilder.addDataBlock_of_toBytes hd, Added.pbRequest, Added.pbResponse, Added.pbBlock]

/-- The entries are kept in their order. -/
theorem foldl_add_pbMsg {entries : List Added} (h : ∀ entry ∈ entries, entry.Ok H) (b : MessageBuilder) :
    (entries.foldl MessageBuilder.add b).pbMsg =
      ⟨b.pbMsg.completeRequestList, b.pbMsg.requests ++ entries.filterMap Added.pbRequest,
        b.pbMsg.responses ++ entries.filterMap Added.pbResponse, b.pbMsg.data ++ entries.filterMap Added.pbBlock⟩ := by
  induction entries generalizing b with
  | nil => simp
  | cons entry entries ih =>
    have hentry := add_pbMsg (h entry List.mem_cons_self) b
    have happend : ∀ {α : Type} (f : Added → Option α) (xs : List α),
        xs ++ (f entry).toList ++ entries.filterMap f = xs ++ (entry :: entries).filterMap f := by
      intro α f xs
      rw [List.filterMap_cons, List.append_assoc]
      cases f entry <;> rfl
    rw [List.foldl_cons, ih (fun e he => h e (List.mem_cons_of_mem entry he)), hentry]
    simp only [happend]

/-! ## Extensions -/

theorem insertExtension_new {es : List (Bytes × Bytes)} {e : Extension} (h : e.name ∉ es.map Prod.fst) :
    MessageBuilder.insertExtension es e = es ++ [(e.name, e.data)] := by
  refine if_neg ?_
  rw [List.any_eq_true]
  rintro ⟨x, hx, heq⟩
  exact h (List.mem_map.mpr ⟨x, hx, of_decide_eq_true heq⟩)

/-- Distinct names are all inserted. -/
theorem pbExtensions_eq {extensions : List Extension} (h : (extensions.map Extension.name).Nodup) :
    MessageBuilder.pbExtensions extensions = extensions.map fun e => (e.name, e.data) := by
  have hfold : ∀ (rest : List Extension) (es : List (Bytes × Bytes)),
      (es.map Prod.fst ++ rest.map Extension.name).Nodup →
      rest.foldl MessageBuilder.insertExtension es = es ++ rest.map fun e => (e.name, e.data) := by
    intro rest
    induction rest with
    | nil => exact fun es _ => (List.append_nil es).symm
    | cons e rest ih =>
      intro es hnodup
      have hnew : e.name ∉ es.map Prod.fst := by
        intro hmem
        exact (List.nodup_append.mp hnodup).2.2 _ hmem _ List.mem_cons_self rfl
      rw [List.foldl_cons, insertExtension_new hnew, ih, List.append_assoc, List.singleton_append, List.map_cons]
      simpa using hnodup
  have hall := hfold extensions [] h
  rwa [List.nil_append] at hall

theorem mapOk {extensions : List Extension} (h : Added.Named extensions) :
    MapOk (MessageBuilder.pbExtensions extensions) := by
  rw [pbExtensions_eq h.1]
  refine ⟨?_, fun pair hpair => ?_⟩
  · rw [List.map_map]
    exact h.1
  · obtain ⟨e, he, rfl⟩ := List.mem_map.mp hpair
    exact h.2 e he

theorem parseExtensions_eq {extensions : List Extension} (h : Added.Named extensions) :
    parseExtensions (MessageBuilder.pbExtensions extensions) = extensions := by
  rw [pbExtensions_eq h.1, parseExtensions, List.map_map]
  exact List.map_id extensions

/-! ## Each entry is parsed back -/

theorem parse_request {entry : Added} (h : entry.Ok H) {src : Pb.Request} (hsrc : entry.pbRequest = some src) :
    ∃ r, entry.sentRequest = some r ∧ parseRequest src = .ok r := by
  cases entry with
  | request id rootCid selector extensions =>
    obtain rfl := Option.some.inj hsrc
    obtain ⟨d, hd⟩ := Option.isSome_iff_exists.mp h.2.1
    refine ⟨_, rfl, ?_⟩
    rw [parseRequest, if_neg Bool.false_ne_true]
    simp only [hd, Option.getD_some, CID.fromBytes_toBytes hd, parseExtensions_eq h.2.2]
  | cancel id =>
    obtain rfl := Option.some.inj hsrc
    exact ⟨_, rfl, if_pos rfl⟩
  | response id status extensions => cases hsrc
  | block cid data => cases hsrc

theorem parse_response {entry : Added} (h : entry.Ok H) {src : Pb.Response} (hsrc : entry.pbResponse = some src) :
    ∃ r, entry.sentResponse = some r ∧ parseResponse src = .ok r := by
  cases entry with
  | response id status extensions =>
    obtain rfl := Option.some.inj hsrc
    refine ⟨_, rfl, ?_⟩
    rw [parseResponse]
    simp only [extractStatusCode_code, if_pos h.2.1, parseExtensions_eq h.2.2]
  | request id rootCid selector extensions => cases hsrc
  | cancel id => cases hsrc
  | block cid data => cases hsrc

theorem parse_block {entry : Added} (h : entry.Ok H) {src : Pb.Block} (hsrc : entry.pbBlock = some src) :
    ∃ b, entry.sentBlock = some b ∧ parseBlock H src = .ok b := by
  cases entry with
  | block cid data =>
    obtain rfl := Option.some.inj hsrc
    obtain ⟨d, hd⟩ := Option.isSome_iff_exists.mp h.1
    have hread := CID.read_cidPrefix (CID.toBytes_eq hd).1 []
    rw [List.append_nil] at hread
    refine ⟨_, rfl, ?_⟩
    rw [parseBlock, hread]
    simp only [CID.blank, h.2, ne_eq, not_true, if_false]
  | request id rootCid selector extensions => cases hsrc
  | cancel id => cases hsrc
  | response id status extensions => cases hsrc

/-- The entries of one kind. -/
theorem mapM_filterMap {α β : Type} {pb : Added → Option α} {sent : Added → Option β}
    {parse : α → Except ParseError β} {entries : List Added} (h : ∀ entry ∈ entries, entry.Ok H)
    (hkind : ∀ entry, (pb entry).isSome = (sent entry).isSome)
    (hparse : ∀ entry, entry.Ok H → ∀ src, pb entry = some src → ∃ r, sent entry = some r ∧ parse src = .ok r) :
    (entries.filterMap pb).mapM parse = .ok (entries.filterMap sent) := by
  induction entries with
  | nil => rfl
  | cons entry entries ih =>
    have hrest := ih fun e he => h e (List.mem_cons_of_mem entry he)
    rw [List.filterMap_cons, List.filterMap_cons]
    cases hpb : pb entry with
    | none =>
      have hnone : sent entry = none := by
        rw [← Option.isNone_iff_eq_none, ← Option.not_isSome, ← hkind, hpb]
        rfl
      rw [hnone]
      exact hrest
    | some src =>
      obtain ⟨r, hr, hsrc⟩ := hparse entry (h entry List.mem_cons_self) src hpb
      rw [hr]
      exact mapM_of_forall₂ (.cons hsrc (mapM_ok hrest))

/-! ## The message -/

/-- The extensions are a map, which has no order. -/
def SameRequest (r r' : Message.Request) : Prop :=
  r' = { r with extensions := r'.extensions } ∧ r'.extensions.Perm r.extensions

def SameResponse (r r' : Message.Response) : Prop :=
  r' = { r with extensions := r'.extensions } ∧ r'.extensions.Perm r.extensions

/-- What was sent came out, in its order. -/
structure Received (entries : List Added) (msg : Message) : Prop where
  requests : List.Forall₂ SameRequest (entries.filterMap Added.sentRequest) msg.requests
  responses : List.Forall₂ SameResponse (entries.filterMap Added.sentResponse) msg.responses
  data : msg.data = entries.filterMap Added.sentBlock
  completeRequestList : msg.completeRequestList = false

theorem code_isInt32 (status : ResponseStatusCode) : IsInt32 status.code := by
  cases status <;> decide

theorem pbMsg_ok {entries : List Added} (h : ∀ entry ∈ entries, entry.Ok H) :
    (entries.foldl MessageBuilder.add .initial).pbMsg.Ok := by
  rw [foldl_add_pbMsg h]
  refine ⟨fun r hr => ?_, fun r hr => ?_⟩
  · obtain ⟨entry, hentry, hr⟩ := List.mem_filterMap.mp hr
    cases entry with
    | request id rootCid selector extensions =>
      obtain rfl := Option.some.inj hr
      exact ⟨(h _ hentry).1, (by decide : IsInt32 1), mapOk (h _ hentry).2.2⟩
    | cancel id =>
      obtain rfl := Option.some.inj hr
      exact ⟨h _ hentry, (by decide : IsInt32 0), List.nodup_nil, by simp [Pb.Request.default]⟩
    | response id status extensions => cases hr
    | block cid data => cases hr
  · obtain ⟨entry, hentry, hr⟩ := List.mem_filterMap.mp hr
    cases entry with
    | response id status extensions =>
      obtain rfl := Option.some.inj hr
      exact ⟨(h _ hentry).1, code_isInt32 status, mapOk (h _ hentry).2.2⟩
    | request id rootCid selector extensions => cases hr
    | cancel id => cases hr
    | block cid data => cases hr

/-- **The wire round trip.** -/
theorem parse_serialize {entries : List Added} (h : ∀ entry ∈ entries, entry.Ok H) {buffer : Bytes}
    (hserialize : (entries.foldl MessageBuilder.add .initial).serialize = some buffer) :
    ∃ body msg, buffer = Varint.encode body.length ++ body ∧ parseMessage H body = .ok msg ∧ Received entries msg := by
  unfold MessageBuilder.serialize at hserialize
  split_ifs at hserialize with hsmall
  obtain rfl := Option.some.inj hserialize
  refine ⟨_, ⟨false, entries.filterMap Added.sentRequest, entries.filterMap Added.sentResponse,
    entries.filterMap Added.sentBlock⟩, rfl, ?_, ?_⟩
  · have hrequests := mapM_filterMap h (fun entry => by cases entry <;> rfl) fun entry hok src => parse_request hok
    have hresponses := mapM_filterMap h (fun entry => by cases entry <;> rfl) fun entry hok src => parse_response hok
    have hdata := mapM_filterMap h (fun entry => by cases entry <;> rfl) fun entry hok src => parse_block hok
    rw [parseMessage, Pb.Message.parse_body (pbMsg_ok h) hsmall]
    simp only [parsePbMessage, foldl_add_pbMsg h, MessageBuilder.initial, Pb.Message.default, List.nil_append,
      hrequests, hresponses, hdata]
    rfl
  · refine ⟨List.forall₂_same.mpr fun r _ => ⟨rfl, .refl _⟩, List.forall₂_same.mpr fun r _ => ⟨rfl, .refl _⟩, rfl, rfl⟩

/-- A request with an extension, a cancel, a response and two blocks of no data, of which one is a V0 CID. -/
def sampleEntries : List Added :=
  [.request 1 sampleCid [0xa0] [⟨[0x61], [7]⟩], .cancel 2, .response 3 .fullContent [],
    .block sampleCid [], .block ⟨.v0, Multicodec.dagPb, sampleCid.contentAddress⟩ []]

theorem sampleEntries_ok : ∀ entry ∈ sampleEntries, entry.Ok emptyHasher := by
  simp only [sampleEntries, List.forall_mem_cons, List.not_mem_nil, false_implies, implies_true, and_true, Added.Ok,
    Added.Named]
  decide +kernel

theorem sampleEntries_received : ∃ buffer body msg,
    (sampleEntries.foldl MessageBuilder.add .initial).serialize = some buffer ∧
    buffer = Varint.encode body.length ++ body ∧ parseMessage emptyHasher body = .ok msg ∧
    Received sampleEntries msg := by
  have hserialize : (sampleEntries.foldl MessageBuilder.add .initial).serialize.isSome = true := by decide +kernel
  obtain ⟨buffer, hbuffer⟩ := Option.isSome_iff_exists.mp hserialize
  obtain ⟨body, msg, hbody, hparse, hreceived⟩ := parse_serialize sampleEntries_ok hbuffer
  exact ⟨buffer, body, msg, hbuffer, hbody, hparse, hreceived⟩

end IpfsLite.Graphsync
