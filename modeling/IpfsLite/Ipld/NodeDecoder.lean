import IpfsLite.Ipld.Node
import IpfsLite.Primitives.CidReading

/-! # What is read back of a node

`createFromRawBytes` on the bytes of a node. The encoder writes the multihash of a link and no version or codec, the
decoder takes it for a whole CID: a link survives if it is V0. -/
namespace IpfsLite

/-- What is read of a multihash is shorter than its bytes. -/
theorem Multihash.length_of_createFromBytes {bytes : Bytes} {m : Multihash} (h : createFromBytes bytes = some m) :
    m.hash.length < bytes.length := by
  obtain ⟨⟨type, rest⟩, htype, hrest⟩ := Option.bind_eq_some_iff.mp h
  obtain ⟨⟨len, rest'⟩, hlen, hcreate⟩ := Option.bind_eq_some_iff.mp hrest
  obtain ⟨used, hused, rfl⟩ := Varint.decode_suffix htype
  obtain ⟨used', -, rfl⟩ := Varint.decode_suffix hlen
  have hpos : 0 < used.length := List.length_pos_iff.mpr hused
  simp only [create] at hcreate
  split_ifs at hcreate
  rw [← Option.some.inj hcreate]
  simp only [List.length_append]
  omega

/-- A bare multihash stands for a V0 CID and for no other. -/
theorem CID.fromBytes_contentAddress {c : CID} : fromBytes c.contentAddress.toBuffer = some c ↔ c.IsV0 := by
  constructor
  · intro h
    obtain hv | h0 := (reencodable_iff).mp (fromBytes_reencodable h)
    · -- as a V1 CID its last part would be the hash, which is the part behind two varints already
      exfalso
      rw [fromBytes] at h
      split_ifs at h
      · obtain ⟨m, -, rfl⟩ := Option.map_eq_some_iff.mp h
        cases hv
      · rw [Multihash.toBuffer, Multihash.head, List.append_assoc,
          Varint.decode_encode_append c.contentAddress.type.toNat_lt] at h
        simp only [Option.bind_eq_bind, Option.bind_some,
          Varint.decode_encode_append c.contentAddress.length_lt] at h
        split_ifs at h
        obtain ⟨m, hm, heq⟩ := Option.map_eq_some_iff.mp h
        have hlt := Multihash.length_of_createFromBytes hm
        rw [← heq] at hlt
        exact lt_irrefl _ hlt
    · exact h0
  · intro h
    refine fromBytes_toBytes ?_
    rw [toBytes, h.1]
    exact if_pos h

namespace Ipld
set_option autoImplicit false

open Codec (StringKey)
open Fallible

/-- The CID that the hash of a link is read as. -/
def rereadCID (cid : CID) : Option CID := CID.fromBytes cid.contentAddress.toBuffer

/-- A link that is read back. -/
def rereadLink (name : StringKey) (link : IPLDLink) : IPLDLink :=
  ⟨(rereadCID link.cid).getD .empty, name.str, link.size⟩

namespace IPLDNodeImpl
variable {n n' : IPLDNodeImpl}

/-- The links are put in as they come, if the hash of each is a CID. -/
theorem readLinks_iff {es : List (StringKey × IPLDLink)} (hblock : n.ipldBlock = none) :
    (es.map fun e => PBLink.mk e.2.cid.contentAddress.toBuffer e.1.str e.2.size).foldlM readLink n = .ok n' ↔
      (∀ e ∈ es, (rereadCID e.2.cid).isSome = true) ∧
      n' = { n with links := es.foldl (fun m e => m.emplace e.1 (rereadLink e.1 e.2)) n.links } := by
  induction es generalizing n with
  | nil =>
    rw [List.map_nil, List.foldlM_nil]
    constructor
    · intro h
      exact ⟨fun e he => (List.not_mem_nil he).elim, (ok_inj h).symm⟩
    · rintro ⟨-, rfl⟩
      rfl
  | cons e es ih =>
    rw [List.map_cons, List.foldlM_cons, List.forall_mem_cons]
    cases hcid : rereadCID e.2.cid with
    | none =>
      have hread : readLink n ⟨e.2.cid.contentAddress.toBuffer, e.1.str, e.2.size⟩ = .error .cid := by
        rw [rereadCID] at hcid
        simp only [readLink, hcid]
      rw [hread]
      refine iff_of_false (fun h => ?_) fun h => ?_
      · cases h
      · exact Bool.false_ne_true h.1.1
    | some cid =>
      have hread : readLink n ⟨e.2.cid.contentAddress.toBuffer, e.1.str, e.2.size⟩ =
          .ok (n.addLink (rereadLink e.1 e.2)) := by
        rw [rereadLink, hcid]
        rw [rereadCID] at hcid
        simp only [readLink, hcid]
        rfl
      rw [hread]
      refine (ih (n := n.addLink (rereadLink e.1 e.2)) rfl).trans ?_
      have hfields : n.addLink (rereadLink e.1 e.2) =
          { n with links := n.links.emplace e.1 (rereadLink e.1 e.2) } := by
        rw [addLink, ← hblock]
        rfl
      simp [hfields]

theorem readDestinations_eq {destinations : List StringKey} (hblock : n.ipldBlock = none) :
    (destinations.map StringKey.str).foldl addDestination n =
      { n with destinations := destinations.foldl (fun m d => m.insert d ()) n.destinations } := by
  induction destinations generalizing n with
  | nil => rfl
  | cons d destinations ih =>
    have hfields : n.addDestination d.str = { n with destinations := n.destinations.insert d () } := by
      rw [addDestination, ← hblock]
    rw [List.map_cons, List.foldl_cons, hfields]
    exact ih hblock

/-- What the bytes of a node are read as. -/
theorem createFromRawBytes_serialize :
    createFromRawBytes n.serialize = .ok n' ↔
      encodedSize n.content n.links n.destinations < 2 ^ 31 ∧
      (∀ e ∈ n.links.entries, (rereadCID e.2.cid).isSome = true) ∧
      n' = ⟨n.content, n.links.mapValues rereadLink, 0, none, n.destinations⟩ := by
  by_cases hsmall : encodedSize n.content n.links n.destinations < 2 ^ 31
  · have hparse : PBNode.parse n.serialize = some (pbNode n.content n.links n.destinations) := by
      rw [serialize, encode_eq hsmall, parse_nodeFields hsmall]
    have hlinks : n.links.entries.foldl (fun m e => m.emplace e.1 (rereadLink e.1 e.2)) OrdMap.empty =
        n.links.mapValues rereadLink := OrdMap.foldl_emplace_eq rereadLink (.refl _)
    have hdestinations : n.destinations.keys.foldl (fun m d => m.insert d ()) OrdMap.empty = n.destinations := by
      rw [OrdMap.keys, List.foldl_map]
      exact (OrdMap.foldl_insert_eq (fun _ v => v) (.refl _)).trans (OrdMap.mapValues_id _)
    have hread : ∀ links, (pbNode n.content n.links n.destinations).destinations.foldl addDestination
        { createFromString n.content with links := links } = ⟨n.content, links, 0, none, n.destinations⟩ := by
      intro links
      refine (readDestinations_eq rfl).trans ?_
      exact congrArg (IPLDNodeImpl.mk n.content links 0 none) hdestinations
    rw [createFromRawBytes, hparse]
    constructor
    · intro h
      obtain ⟨node, hnode, h⟩ := bind_ok h
      obtain ⟨hall, rfl⟩ := (readLinks_iff rfl).mp hnode
      refine ⟨hsmall, hall, ?_⟩
      rw [← ok_inj h, ← hlinks]
      exact hread _
    · rintro ⟨-, hall, rfl⟩
      have hnode := (readLinks_iff (n := createFromString n.content) rfl).mpr ⟨hall, rfl⟩
      simp only [pbNode] at hnode ⊢
      rw [hnode, ← hlinks]
      exact congrArg Except.ok (hread _)
  · refine iff_of_false (fun h => hsmall ?_) fun h => hsmall h.1
    rw [createFromRawBytes] at h
    cases hparse : PBNode.parse n.serialize with
    | none =>
      rw [hparse] at h
      cases h
    | some pbNode => exact small_of_parse hparse

/-- The links come back if each is V0. -/
theorem mapValues_rereadLink {H : Hasher} (h : n.Valid H) :
    ((∀ e ∈ n.links.entries, (rereadCID e.2.cid).isSome = true) ∧ n.links.mapValues rereadLink = n.links) ↔
      ∀ e ∈ n.links.entries, e.2.cid.IsV0 := by
  constructor
  · rintro ⟨hall, heq⟩ e he
    have hfind := (OrdMap.find?_some_iff n.links e.1 e.2).mpr he
    have hself : some (rereadLink e.1 e.2) = some e.2 := by
      rw [← hfind, ← heq, OrdMap.find?_mapValues, hfind]
      rfl
    obtain ⟨cid, hcid⟩ := Option.isSome_iff_exists.mp (hall e he)
    have hlink : cid = e.2.cid := by
      rw [← Option.some.inj hself, rereadLink, hcid]
      rfl
    exact (CID.fromBytes_contentAddress).mp (hlink ▸ hcid)
  · intro hv0
    have hcid : ∀ e ∈ n.links.entries, rereadCID e.2.cid = some e.2.cid :=
      fun e he => (CID.fromBytes_contentAddress).mpr (hv0 e he)
    refine ⟨fun e he => hcid e he ▸ rfl, OrdMap.ext_find? fun k => ?_⟩
    rw [OrdMap.find?_mapValues]
    cases hfind : n.links.find? k with
    | none => rfl
    | some link =>
      have he : (k, link) ∈ n.links.entries := (OrdMap.find?_some_iff _ _ _).mp hfind
      rw [Option.map_some, rereadLink, hcid _ he, Option.getD_some, ← h.named _ he]

theorem read_back {H : Hasher} (h : n.Valid H) (hsmall : encodedSize n.content n.links n.destinations < 2 ^ 31)
    (hv0 : ∀ e ∈ n.links.entries, e.2.cid.IsV0) :
    ∃ copy, createFromRawBytes n.serialize = .ok copy ∧ copy.content = n.content ∧ copy.links = n.links ∧
      copy.destinations = n.destinations ∧ copy.childNodesSize = 0 := by
  obtain ⟨hall, hlinks⟩ := (mapValues_rereadLink h).mpr hv0
  exact ⟨_, createFromRawBytes_serialize.mpr ⟨hsmall, hall, rfl⟩, rfl, hlinks, rfl, rfl⟩

theorem decodable_of_read {H : Hasher} (h : n.Valid H) (hread : createFromRawBytes n.serialize = .ok n')
    (hlinks : n'.links = n.links) :
    encodedSize n.content n.links n.destinations < 2 ^ 31 ∧ ∀ e ∈ n.links.entries, e.2.cid.IsV0 := by
  obtain ⟨hsmall, hall, rfl⟩ := createFromRawBytes_serialize.mp hread
  exact ⟨hsmall, (mapValues_rereadLink h).mp ⟨hall, hlinks⟩⟩

end IPLDNodeImpl

/-- **A node is read back** from its bytes, with its CID, exactly when they are less than 2 GiB and every link is a V0
CID; what is read does not know the sizes of the nodes behind its links. -/
theorem node_round_trip (H : Hasher) (calls : List Call) (i : ℕ) :
    let n := Nodes.after H calls i
    (∃ copy, IPLDNodeImpl.createFromRawBytes (n.getRawBytes H).1 = .ok copy ∧ copy.content = n.content ∧
      copy.links = n.links ∧ copy.destinations = n.destinations ∧ (copy.getCID H).1 = (n.getCID H).1 ∧
      (copy.getRawBytes H).1 = (n.getRawBytes H).1 ∧
      (copy.size H).1 = UInt64.ofNat (n.getRawBytes H).1.length) ↔
    encodedSize n.content n.links n.destinations < 2 ^ 31 ∧ ∀ e ∈ n.links.entries, e.2.cid.IsV0 := by
  intro n
  have hvalid : n.Valid H := Nodes.valid_after H calls i
  have hraw := IPLDNodeImpl.getRawBytes_eq hvalid
  rw [hraw]
  constructor
  · rintro ⟨copy, hread, -, hlinks, -⟩
    exact IPLDNodeImpl.decodable_of_read hvalid hread hlinks
  · rintro ⟨hsmall, hv0⟩
    obtain ⟨copy, hread, hcontent, hlinks, hdestinations, htotal⟩ := IPLDNodeImpl.read_back hvalid hsmall hv0
    have hcopy : copy.Valid H := IPLDNodeImpl.valid_createFromRawBytes hread
    have hserialize : copy.serialize = n.serialize := by
      rw [IPLDNodeImpl.serialize, hcontent, hlinks, hdestinations, IPLDNodeImpl.serialize]
    refine ⟨copy, hread, hcontent, hlinks, hdestinations, ?_, ?_, ?_⟩
    · rw [IPLDNodeImpl.getCID_eq hcopy, IPLDNodeImpl.getCID_eq hvalid, hserialize]
    · rw [IPLDNodeImpl.getRawBytes_eq hcopy, hserialize]
    · rw [IPLDNodeImpl.size_eq hcopy, hserialize, htotal, UInt64.add_zero]

/-! ## Bytes from elsewhere -/

/-- The one form in which a node is written: its links by their names, each with the hash of a V0 CID, a name and a
size, then its content and then its destinations in order, and nothing else. -/
def Canonical (bytes : Bytes) : Prop :=
  ∃ content links destinations, (∀ e ∈ (links : Links).entries, e.2.name = e.1.str ∧ e.2.cid.IsV0) ∧
    bytes.length < 2 ^ 31 ∧ bytes = Wire.encodeFields (nodeFields content links destinations)

theorem Canonical.read_back {bytes : Bytes} (h : Canonical bytes) :
    ∃ n, IPLDNodeImpl.createFromRawBytes bytes = .ok n ∧ n.serialize = bytes := by
  obtain ⟨content, links, destinations, hlinks, hlength, rfl⟩ := h
  rw [nodeFields_length] at hlength
  let written : IPLDNodeImpl := ⟨content, links, 0, none, destinations⟩
  have hwritten : written.Valid default := .of_dropped rfl fun e he => (hlinks e he).1
  have hserialize : written.serialize = Wire.encodeFields (nodeFields content links destinations) := encode_eq hlength
  obtain ⟨copy, hread, hcontent, hlinks', hdestinations, -⟩ :=
    IPLDNodeImpl.read_back hwritten hlength fun e he => (hlinks e he).2
  rw [hserialize] at hread
  refine ⟨copy, hread, ?_⟩
  rw [IPLDNodeImpl.serialize, hcontent, hlinks', hdestinations, ← hserialize]
  rfl

/-- **Bytes that are read are written again** exactly when they are in the canonical form. -/
theorem IPLDNodeImpl.serialize_read_iff {bytes : Bytes} {n : IPLDNodeImpl} (h : createFromRawBytes bytes = .ok n) :
    n.serialize = bytes ↔ Canonical bytes := by
  have hvalid : n.Valid default := valid_createFromRawBytes h
  constructor
  · rintro rfl
    obtain ⟨hsmall, hall, hself⟩ := createFromRawBytes_serialize.mp h
    have hlinks : n.links.mapValues rereadLink = n.links := (congrArg IPLDNodeImpl.links hself).symm
    have hv0 := (mapValues_rereadLink hvalid).mp ⟨hall, hlinks⟩
    refine ⟨n.content, n.links, n.destinations, fun e he => ⟨hvalid.named e he, hv0 e he⟩, ?_, ?_⟩
    · rw [serialize, encode_length]
      exact hsmall
    · exact encode_eq hsmall
  · intro hcanonical
    obtain ⟨copy, hread, hserialize⟩ := hcanonical.read_back
    obtain rfl := ok_inj (h.symm.trans hread)
    exact hserialize

end Ipld
end IpfsLite
