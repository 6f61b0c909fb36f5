import IpfsLite.Graphsync.ResponseBatches

/-! # Messages that were accepted

What `parseMessage` accepts can be given to a builder again and comes back as it was, but for the priorities, which no
builder writes. -/
namespace IpfsLite.Graphsync
set_option autoImplicit false

open Fallible
open Wire

variable {H : Hasher}

/-! ## Well-formed records -/

namespace Pb

theorem Request.ofFields_ok {fs : List Field} {r : Request} (h : ofFields fs = some r) : r.Ok := by
  obtain ⟨extensions, hmap, rfl⟩ := Option.map_eq_some_iff.mp h
  exact ⟨isInt32_int32OfBits _, isInt32_int32OfBits _, readMap_ok hmap⟩

theorem Response.ofFields_ok {fs : List Field} {r : Response} (h : ofFields fs = some r) : r.Ok := by
  obtain ⟨extensions, hmap, rfl⟩ := Option.map_eq_some_iff.mp h
  exact ⟨isInt32_int32OfBits _, isInt32_int32OfBits _, readMap_ok hmap⟩

theorem mapM_parseWith_ok {α : Type} {ofFields : List Field → Option α} {P : α → Prop}
    (hP : ∀ fs a, ofFields fs = some a → P a) {bs : List Bytes} {as : List α}
    (h : bs.mapM (parseWith ofFields) = some as) : ∀ a ∈ as, P a := by
  induction bs generalizing as with
  | nil =>
    rw [← Option.some.inj h]
    exact fun _ ha => (List.not_mem_nil ha).elim
  | cons b bs ih =>
    rw [List.mapM_cons] at h
    obtain ⟨a, hfirst, h⟩ := Option.bind_eq_some_iff.mp h
    obtain ⟨rest, hrest, h⟩ := Option.bind_eq_some_iff.mp h
    obtain ⟨fs, -, ha⟩ := Option.bind_eq_some_iff.mp hfirst
    rw [← Option.some.inj h]
    exact List.forall_mem_cons.mpr ⟨hP fs a ha, ih hrest⟩

/-- What was parsed is what a writer may have put in. -/
theorem Message.parse_ok {bytes : Bytes} {m : Message} (h : parse bytes = some m) : m.Ok := by
  obtain ⟨fs, -, h⟩ := Option.bind_eq_some_iff.mp h
  obtain ⟨requests, hrequests, h⟩ := Option.bind_eq_some_iff.mp h
  obtain ⟨responses, hresponses, h⟩ := Option.bind_eq_some_iff.mp h
  obtain ⟨data, -, h⟩ := Option.bind_eq_some_iff.mp h
  rw [← Option.some.inj h]
  exact ⟨mapM_parseWith_ok (fun _ _ => Request.ofFields_ok) hrequests,
    mapM_parseWith_ok (fun _ _ => Response.ofFields_ok) hresponses⟩

end Pb

theorem named_parseExtensions {es : List (Bytes × Bytes)} (h : MapOk es) : Added.Named (parseExtensions es) := by
  refine ⟨?_, fun e he => ?_⟩
  · rw [parseExtensions, List.map_map]
    exact h.nodup
  · obtain ⟨pair, hpair, rfl⟩ := List.mem_map.mp he
    exact h.utf8 pair hpair

theorem code_pos_of_extract {code : ℤ} {status : ResponseStatusCode} (h : extractStatusCode code = some status) :
    0 < status.code := by
  unfold extractStatusCode at h
  split at h <;> first | (obtain rfl := Option.some.inj h; decide) | cases h

/-! ## The entries of a message -/

/-- The call that adds a request to a builder. -/
def Message.Request.entry (r : Message.Request) : Added :=
  if r.cancel then .cancel r.id else .request r.id r.rootCid r.selector r.extensions

/-- The calls that give a builder what a message holds. -/
def Message.entries (m : Message) : List Added :=
  m.requests.map Message.Request.entry ++ m.responses.map (fun r => .response r.id r.status r.extensions) ++
    m.data.map fun b => .block b.1 b.2

/-- What no builder writes is left at its default. -/
def Message.resent (m : Message) : Message :=
  ⟨false, m.requests.map fun r => { r with priority := 1 }, m.responses, m.data⟩

theorem parseRequest_entry {src : Pb.Request} (hsrc : src.Ok) {r : Message.Request} (h : parseRequest src = .ok r) :
    r.entry.Ok H ∧ r.entry.sentRequest = some { r with priority := 1 } := by
  unfold parseRequest at h
  split_ifs at h with hcancel
  · obtain rfl := ok_inj h
    exact ⟨hsrc.id, rfl⟩
  · split at h
    · cases h
    · next cid hcid =>
      obtain rfl := ok_inj h
      refine ⟨⟨hsrc.id, ?_, named_parseExtensions hsrc.extensions⟩, rfl⟩
      exact CID.reencodable_toBytes.mp (CID.fromBytes_reencodable hcid)

theorem parseResponse_entry {src : Pb.Response} (hsrc : src.Ok) {r : Message.Response}
    (h : parseResponse src = .ok r) : (Added.response r.id r.status r.extensions).Ok H := by
  unfold parseResponse at h
  split at h
  · cases h
  · next status hstatus =>
    obtain rfl := ok_inj h
    exact ⟨hsrc.id, code_pos_of_extract hstatus, named_parseExtensions hsrc.extensions⟩

theorem parseBlock_entry {src : Pb.Block} {b : Block} (h : parseBlock H src = .ok b) :
    (Added.block b.1 b.2).Ok H ↔ b.1.toBytes.isSome = true := by
  unfold parseBlock at h
  split at h
  · cases h
  · next cid rest hread =>
    split_ifs at h
    split at h
    · cases h
    · next address haddress =>
      obtain rfl := ok_inj h
      refine ⟨fun hok => hok.1, fun hbytes => ⟨hbytes, ?_⟩⟩
      rw [(Hasher.calculate_type haddress).1]
      exact haddress

/-! ## Accepted messages -/

section
variable {bytes : Bytes} {msg : Message}

theorem sentResponse_entries (msg : Message) : msg.entries.filterMap Added.sentResponse = msg.responses := by
  have hrequests : (msg.requests.map Message.Request.entry).filterMap Added.sentResponse = [] := by
    refine List.filterMap_eq_nil_iff.mpr fun entry hentry => ?_
    obtain ⟨r, -, rfl⟩ := List.mem_map.mp hentry
    unfold Message.Request.entry
    split_ifs <;> rfl
  have hdata : (msg.data.map fun b => Added.block b.1 b.2).filterMap Added.sentResponse = [] := by
    refine List.filterMap_eq_nil_iff.mpr fun entry hentry => ?_
    obtain ⟨b, -, rfl⟩ := List.mem_map.mp hentry
    rfl
  rw [Message.entries, List.filterMap_append, List.filterMap_append, hrequests, hdata, List.nil_append, List.append_nil,
    List.filterMap_map]
  exact List.filterMap_some

theorem sentBlock_entries (msg : Message) : msg.entries.filterMap Added.sentBlock = msg.data := by
  have hrequests : (msg.requests.map Message.Request.entry).filterMap Added.sentBlock = [] := by
    refine List.filterMap_eq_nil_iff.mpr fun entry hentry => ?_
    obtain ⟨r, -, rfl⟩ := List.mem_map.mp hentry
    unfold Message.Request.entry
    split_ifs <;> rfl
  have hresponses :
      (msg.responses.map fun r => Added.response r.id r.status r.extensions).filterMap Added.sentBlock = [] := by
    refine List.filterMap_eq_nil_iff.mpr fun entry hentry => ?_
    obtain ⟨r, -, rfl⟩ := List.mem_map.mp hentry
    rfl
  rw [Message.entries, List.filterMap_append, List.filterMap_append, hrequests, hresponses, List.nil_append,
    List.nil_append, List.filterMap_map]
  exact List.filterMap_some

theorem sentRequest_entries
    (h : ∀ r ∈ msg.requests, r.entry.sentRequest = some { r with priority := 1 }) :
    msg.entries.filterMap Added.sentRequest = msg.resent.requests := by
  have hrest : (msg.responses.map fun r => Added.response r.id r.status r.extensions).filterMap Added.sentRequest = [] ∧
      (msg.data.map fun b => Added.block b.1 b.2).filterMap Added.sentRequest = [] := by
    constructor
    · refine List.filterMap_eq_nil_iff.mpr fun entry hentry => ?_
      obtain ⟨r, -, rfl⟩ := List.mem_map.mp hentry
      rfl
    · refine List.filterMap_eq_nil_iff.mpr fun entry hentry => ?_
      obtain ⟨b, -, rfl⟩ := List.mem_map.mp hentry
      rfl
  rw [Message.entries, List.filterMap_append, List.filterMap_append, hrest.1, hrest.2, List.append_nil,
    List.append_nil, List.filterMap_map, Message.resent, ← List.filterMap_eq_map]
  exact List.filterMap_congr h

theorem entry_of_accepted (h : parseMessage H bytes = .ok msg) :
    ∀ r ∈ msg.requests, r.entry.Ok H ∧ r.entry.sentRequest = some { r with priority := 1 } := by
  obtain ⟨pb, hpb, hrequests, -, -⟩ := parseMessage_ok h
  exact forall₂_right ((List.forall₂_and_left _ _).mpr ⟨(Pb.Message.parse_ok hpb).requests, hrequests⟩) fun src r hr =>
    parseRequest_entry hr.1 hr.2

/-- The requests and the responses of an accepted message are fit to be sent, a block is when its CID has a byte
form. -/
theorem entries_ok_iff (h : parseMessage H bytes = .ok msg) :
    (∀ entry ∈ msg.entries, entry.Ok H) ↔ ∀ b ∈ msg.data, b.1.toBytes.isSome = true := by
  obtain ⟨pb, hpb, -, hresponses, hdata⟩ := parseMessage_ok h
  have hrequests : ∀ r ∈ msg.requests, r.entry.Ok H := fun r hr => (entry_of_accepted h r hr).1
  have hresponses : ∀ r ∈ msg.responses, (Added.response r.id r.status r.extensions).Ok H :=
    forall₂_right ((List.forall₂_and_left _ _).mpr ⟨(Pb.Message.parse_ok hpb).responses, hresponses⟩) fun src r hr =>
      parseResponse_entry hr.1 hr.2
  have hblocks : (∀ b ∈ msg.data, (Added.block b.1 b.2).Ok H) ↔ ∀ b ∈ msg.data, b.1.toBytes.isSome = true := by
    refine forall₂_congr fun b hb => ?_
    exact forall₂_right hdata (fun src b hb => parseBlock_entry hb) b hb
  rw [Message.entries, List.forall_mem_append, List.forall_mem_append, List.forall_mem_map, List.forall_mem_map,
    List.forall_mem_map]
  exact ⟨fun hall => hblocks.mp hall.2, fun hbytes => ⟨⟨hrequests, hresponses⟩, hblocks.mpr hbytes⟩⟩

/-- **What was accepted can be sent on**: its requests and responses are well formed, and when its blocks have CIDs with
a byte form, the message that a builder makes of it is read as the same message, the priorities left aside. -/
theorem accepted_resent (h : parseMessage H bytes = .ok msg) :
    ((∀ entry ∈ msg.entries, entry.Ok H) ↔ ∀ b ∈ msg.data, b.1.toBytes.isSome = true) ∧
    ((∀ b ∈ msg.data, b.1.toBytes.isSome = true) → msg.entries ≠ [] →
      (MessageBuilder.built msg.entries).getSerializedSize ≤ kMaxMessageSize →
      (MessageBuilder.built msg.entries).serialize.bind (Transport.opened H) = some msg.resent) := by
  refine ⟨entries_ok_iff h, fun hbytes hnonempty hsmall => ?_⟩
  rw [InboundEndpoint.opened_serialize ((entries_ok_iff h).mpr hbytes) hnonempty hsmall, InboundEndpoint.sentMessage,
    sentRequest_entries fun r hr => (entry_of_accepted h r hr).2, sentResponse_entries, sentBlock_entries]
  rfl

theorem sampleMessage_resent :
    (MessageBuilder.built [.request 1 sampleCid [] [], .block sampleCid []]).serialize.bind
        (Transport.opened emptyHasher) =
      some ⟨false, [{ sampleRequest with priority := 1 }], [], [(sampleCid, [])]⟩ := by
  have hparse : parseMessage emptyHasher sampleMessage = .ok ⟨false, [sampleRequest], [], [(sampleCid, [])]⟩ := by
    decide +kernel
  refine (accepted_resent hparse).2 ?_ ?_ ?_
  · decide +kernel
  · decide +kernel
  · decide +kernel

end

end IpfsLite.Graphsync
