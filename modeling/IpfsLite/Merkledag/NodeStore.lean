import IpfsLite.Ipfs.Datastore
import IpfsLite.Ipld.NodeDecoder
import IpfsLite.Merkledag.Service

/-! # Nodes in a datastore

`addNode`, `getNode`, `removeNode`, `markResolved` and `isResolved` over an in-memory datastore, to which
`IpfsBlockService` passes every call on. -/
namespace IpfsLite.Merkledag
set_option autoImplicit false

open Datastore (InMemory)
open Fallible
open Ipld

/-! ## One block -/

theorem getNode_of_get {ε : Type} {get : CID → Except ε Bytes} {cid : CID} {bytes : Bytes} (hget : get cid = .ok bytes)
    {n : IPLDNodeImpl} : getNode get cid = .ok n ↔ IPLDNodeImpl.createFromRawBytes bytes = .ok n := by
  simp only [getNode, hget]
  cases IPLDNodeImpl.createFromRawBytes bytes <;> simp [Except.mapError]

theorem get_of_getNode {ε : Type} {get : CID → Except ε Bytes} {cid : CID} {n : IPLDNodeImpl}
    (h : getNode get cid = .ok n) : ∃ bytes, get cid = .ok bytes := by
  rw [getNode] at h
  cases hget : get cid with
  | error e =>
    rw [hget] at h
    cases h
  | ok bytes => exact ⟨bytes, rfl⟩

/-- **A node is what its CID says** exactly when the block is in the canonical form and stands under its own
sha2-256: then `getNode` returns a node with this CID and these bytes. -/
theorem getNode_identity {ε : Type} (H : Hasher) (get : CID → Except ε Bytes) (cid : CID) :
    (∃ n, getNode get cid = .ok n ∧ (n.getCID H).1 = cid ∧ get cid = .ok (n.getRawBytes H).1) ↔
      ∃ bytes, get cid = .ok bytes ∧ Canonical bytes ∧ cid = ⟨.v0, Multicodec.dagPb, H.sha256 bytes⟩ := by
  constructor
  · rintro ⟨n, hnode, hcid, hget⟩
    have hread := (getNode_of_get hget).mp hnode
    have hvalid : n.Valid H := IPLDNodeImpl.valid_createFromRawBytes hread
    rw [IPLDNodeImpl.getRawBytes_eq hvalid] at hget hread
    refine ⟨n.serialize, hget, (IPLDNodeImpl.serialize_read_iff hread).mp rfl, ?_⟩
    rw [← hcid, IPLDNodeImpl.getCID_eq hvalid]
  · rintro ⟨bytes, hget, hcanonical, hcid⟩
    obtain ⟨n, hread, hserialize⟩ := hcanonical.read_back
    have hvalid : n.Valid H := IPLDNodeImpl.valid_createFromRawBytes hread
    refine ⟨n, (getNode_of_get hget).mpr hread, ?_, ?_⟩
    · rw [IPLDNodeImpl.getCID_eq hvalid, hserialize, hcid]
    · rw [IPLDNodeImpl.getRawBytes_eq hvalid, hserialize, hget]

/-! ## Runs of calls -/

/-- A node that the calls of its interface may have left behind. -/
structure BuiltNode (H : Hasher) where
  node : IPLDNodeImpl
  valid : node.Valid H

inductive ServiceCall (H : Hasher) where
  | addNode (node : BuiltNode H)
  | removeNode (cid : CID)
  | markResolved (cid : CID)

/-- The datastore behind the service. -/
def serve (H : Hasher) (s : InMemory) : ServiceCall H → InMemory
  | .addNode n =>
    let (cid, bytes) := addNode H n.node
    s.set cid bytes
  | .removeNode cid => s.remove cid
  | .markResolved cid => s.sealBranch cid

/-- A dictionary of nodes, which is what the service is for. -/
abbrev Dictionary (H : Hasher) := CID → Option (BuiltNode H)

def Dictionary.call {H : Hasher} (d : Dictionary H) : ServiceCall H → Dictionary H
  | .addNode n => Function.update d (n.node.getCID H).1 (some n)
  | .removeNode cid => Function.update d cid none
  | .markResolved _ => d

section
variable {H : Hasher} {s : InMemory} {d : Dictionary H}

/-- A node stands under its own CID, and its block under the same. -/
structure Represents (s : InMemory) (d : Dictionary H) : Prop where
  blocks : ∀ cid, s.storage.find? cid = (d cid).map fun n => n.node.serialize
  named : ∀ cid, ∀ n ∈ d cid, (n.node.getCID H).1 = cid

theorem Represents.call (h : Represents s d) (c : ServiceCall H) : Represents (serve H s c) (d.call c) := by
  cases c with
  | addNode n =>
    refine ⟨fun cid => ?_, fun cid n' hn' => ?_⟩
    · have hfind : (serve H s (.addNode n)).storage.find? cid =
          if cid = (n.node.getCID H).1 then some n.node.serialize else s.storage.find? cid := by
        rw [← IPLDNodeImpl.getRawBytes_eq n.valid]
        exact AssocMap.find?_insert _ _ _ _
      rw [hfind, Dictionary.call, Function.update_apply]
      split_ifs
      · rfl
      · exact h.blocks cid
    · rw [Dictionary.call, Function.update_apply] at hn'
      split_ifs at hn' with hcid
      · rw [← Option.some.inj hn', hcid]
      · exact h.named cid n' hn'
  | removeNode cid =>
    refine ⟨fun cid' => ?_, fun cid' n' hn' => ?_⟩
    · have hfind : (serve H s (.removeNode cid)).storage.find? cid' =
          if cid' = cid then none else s.storage.find? cid' := AssocMap.find?_erase _ _ _
      rw [hfind, Dictionary.call, Function.update_apply]
      split_ifs
      · rfl
      · exact h.blocks cid'
    · rw [Dictionary.call, Function.update_apply] at hn'
      split_ifs at hn'
      · cases hn'
      · exact h.named cid' n' hn'
  | markResolved cid => exact ⟨h.blocks, h.named⟩

theorem represents_foldl (h : Represents s d) (calls : List (ServiceCall H)) :
    Represents (calls.foldl (serve H) s) (calls.foldl Dictionary.call d) := by
  induction calls generalizing s d with
  | nil => exact h
  | cons c calls ih => exact ih (h.call c)

theorem isSealed_foldl (calls : List (ServiceCall H)) (cid : CID) :
    (calls.foldl (serve H) s).isSealed cid = true ↔ s.isSealed cid = true ∨ .markResolved cid ∈ calls := by
  induction calls generalizing s with
  | nil => simp
  | cons c calls ih =>
    rw [List.foldl_cons, ih, List.mem_cons]
    cases c with
    | addNode n =>
      have hkeep : (serve H s (.addNode n)).isSealed cid = s.isSealed cid := rfl
      simp [hkeep]
    | removeNode cid' =>
      have hkeep : (serve H s (.removeNode cid')).isSealed cid = s.isSealed cid := rfl
      simp [hkeep]
    | markResolved cid' =>
      have hseal : (serve H s (.markResolved cid')).isSealed cid = true ↔ cid = cid' ∨ s.isSealed cid = true := by
        rw [serve, InMemory.isSealed, InMemory.sealBranch, AssocMap.contains, AssocMap.find?_insert]
        by_cases hcid : cid = cid' <;> simp [hcid, InMemory.isSealed, AssocMap.contains]
      rw [hseal, ServiceCall.markResolved.injEq, or_assoc, or_left_comm]

end

/-- **The service is a dictionary of nodes** under their own CIDs: in every run it holds the block of the node that was
added last under a CID and not removed since, and gives it back as it was exactly when it can be decoded; what is
marked as resolved stays so. -/
theorem service_refines_dictionary (H : Hasher) (calls : List (ServiceCall H)) (cid : CID) :
    let s := calls.foldl (serve H) .empty
    let d : Dictionary H := calls.foldl Dictionary.call fun _ => none
    (s.isSealed cid = true ↔ .markResolved cid ∈ calls) ∧
    (d cid = none → getNode s.get cid = .error (.store .notFound)) ∧
    ∀ n, d cid = some n → (n.node.getCID H).1 = cid ∧ s.get cid = .ok n.node.serialize ∧
      ((∃ copy, getNode s.get cid = .ok copy ∧ copy.content = n.node.content ∧ copy.links = n.node.links ∧
          copy.destinations = n.node.destinations ∧ (copy.getCID H).1 = cid) ↔
        encodedSize n.node.content n.node.links n.node.destinations < 2 ^ 31 ∧
          ∀ e ∈ n.node.links.entries, e.2.cid.IsV0) := by
  intro s d
  have h : Represents s d := represents_foldl ⟨fun _ => rfl, fun _ _ hn => (Option.not_mem_none _ hn).elim⟩ calls
  refine ⟨?_, fun hnone => ?_, fun n hn => ?_⟩
  · simp only [s, isSealed_foldl]
    exact or_iff_right Bool.false_ne_true
  · have hget : s.get cid = .error .notFound := by rw [InMemory.get, h.blocks, hnone, Option.map_none]
    rw [getNode, hget]
  · have hget : s.get cid = .ok n.node.serialize := by rw [InMemory.get, h.blocks, hn, Option.map_some]
    have hcid := h.named cid n hn
    refine ⟨hcid, hget, ?_⟩
    simp only [getNode_of_get hget]
    constructor
    · rintro ⟨copy, hread, -, hlinks, -⟩
      exact IPLDNodeImpl.decodable_of_read n.valid hread hlinks
    · rintro ⟨hsmall, hv0⟩
      obtain ⟨copy, hread, hcontent, hlinks, hdestinations, -⟩ := IPLDNodeImpl.read_back n.valid hsmall hv0
      refine ⟨copy, hread, hcontent, hlinks, hdestinations, ?_⟩
      rw [← hcid, IPLDNodeImpl.getCID_eq (IPLDNodeImpl.valid_createFromRawBytes hread), IPLDNodeImpl.getCID_eq n.valid,
        IPLDNodeImpl.serialize, hcontent, hlinks, hdestinations, IPLDNodeImpl.serialize]

end IpfsLite.Merkledag
