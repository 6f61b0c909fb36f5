import IpfsLite.Foundations.Fallible
import IpfsLite.Ipld.NodeEncoder

/-! # Nodes

`IPLDNodeImpl` (`ipld/impl/ipld_node_impl.cpp`) and the block that it caches (`ipld/ipld_block.hpp`). The accessors
are const and fill the cache, the mutators drop it. Nodes refer to each other by shared pointers, which are numbers
here, so that a node can be added to itself. -/
namespace IpfsLite

theorem Hasher.sha256_bounded (H : Hasher) (buffer : Bytes) : (H.sha2_256 buffer).length ≤ kMaxHashLength := by
  rw [H.sha2_256_length]
  decide

/-- `IPFSHasher::sha2_256`. -/
def Hasher.sha256 (H : Hasher) (buffer : Bytes) : Multihash :=
  ⟨HashType.sha256, H.sha2_256 buffer, H.sha256_bounded buffer⟩

theorem Hasher.calculate_sha256 (H : Hasher) (buffer : Bytes) :
    H.calculate HashType.sha256 buffer = some (H.sha256 buffer) := by
  rw [Hasher.calculate, if_pos rfl]
  exact Multihash.create_of_le (H.sha256_bounded buffer)

instance : Inhabited Hasher :=
  ⟨fun _ => .replicate 32 0, fun _ => .replicate 32 0, fun _ => List.length_replicate, fun _ => List.length_replicate⟩

namespace Ipld
set_option autoImplicit false

open Codec (StringKey)
open Fallible

structure IPLDBlock where
  cid : CID
  bytes : Bytes
  deriving DecidableEq

inductive IPLDNodeError where
  | linkNotFound
  | invalidRawData
  deriving DecidableEq, Repr

structure IPLDNodeImpl where
  content : Bytes
  links : Links
  childNodesSize : UInt64
  ipldBlock : Option IPLDBlock
  destinations : Destinations

namespace IPLDNodeImpl

def empty : IPLDNodeImpl := ⟨[], .empty, 0, none, .empty⟩

def serialize (n : IPLDNodeImpl) : Bytes := encode n.content n.links n.destinations

end IPLDNodeImpl

/-- `IPLDBlock::create`, with the parameters of an `IPLDNodeImpl`. -/
def IPLDBlock.create (H : Hasher) (entity : IPLDNodeImpl) : IPLDBlock :=
  ⟨⟨.v0, Multicodec.dagPb, H.sha256 entity.serialize⟩, entity.serialize⟩

namespace IPLDNodeImpl
variable (H : Hasher)

/-! ## Accessors -/

def getIPLDBlock (n : IPLDNodeImpl) : IPLDBlock × IPLDNodeImpl :=
  match n.ipldBlock with
  | some block => (block, n)
  | none => (.create H n, { n with ipldBlock := some (.create H n) })

def getCID (n : IPLDNodeImpl) : CID × IPLDNodeImpl :=
  let (block, n) := n.getIPLDBlock H
  (block.cid, n)

def getRawBytes (n : IPLDNodeImpl) : Bytes × IPLDNodeImpl :=
  let (block, n) := n.getIPLDBlock H
  (block.bytes, n)

def size (n : IPLDNodeImpl) : UInt64 × IPLDNodeImpl :=
  let (bytes, n) := n.getRawBytes H
  (UInt64.ofNat bytes.length + n.childNodesSize, n)

def getLink (n : IPLDNodeImpl) (name : Bytes) : Except IPLDNodeError IPLDLink :=
  match n.links.find? ⟨name⟩ with
  | some link => .ok link
  | none => .error .linkNotFound

def getLinks (n : IPLDNodeImpl) : List IPLDLink := n.links.entries.map Prod.snd

def hasDestination (n : IPLDNodeImpl) (destination : Bytes) : Bool := n.destinations.contains ⟨destination⟩

/-! ## Mutators -/

def assign (n : IPLDNodeImpl) (input : Bytes) : IPLDNodeImpl := { n with content := input, ipldBlock := none }

def addLink (n : IPLDNodeImpl) (link : IPLDLink) : IPLDNodeImpl :=
  { n with links := n.links.emplace ⟨link.name⟩ link, ipldBlock := none }

def removeLink (n : IPLDNodeImpl) (linkName : Bytes) : IPLDNodeImpl :=
  match n.links.find? ⟨linkName⟩ with
  | some link =>
    { n with
      childNodesSize := n.childNodesSize - link.size
      links := n.links.erase ⟨linkName⟩
      ipldBlock := none }
  | none => n

def addDestination (n : IPLDNodeImpl) (destination : Bytes) : IPLDNodeImpl :=
  { n with destinations := n.destinations.insert ⟨destination⟩ (), ipldBlock := none }

def removeDestination (n : IPLDNodeImpl) (destination : Bytes) : IPLDNodeImpl :=
  { n with destinations := n.destinations.erase ⟨destination⟩, ipldBlock := none }

def clearDestinations (n : IPLDNodeImpl) : IPLDNodeImpl := { n with destinations := .empty, ipldBlock := none }

def createFromString (content : Bytes) : IPLDNodeImpl := empty.assign content

/-! ## Decoding -/

/-- The errors of `createFromRawBytes`. -/
inductive DecodeError where
  /-- `IPLDNodeDecoderPBError::INVALID_RAW_BYTES` -/
  | invalidRawBytes
  /-- an error of `ContentIdentifierCodec` -/
  | cid
  deriving DecidableEq, Repr

/-- One turn of the loop over the links. -/
def readLink (n : IPLDNodeImpl) (link : PBLink) : Except DecodeError IPLDNodeImpl :=
  match CID.fromBytes link.hash with
  | some linkCid => .ok (n.addLink ⟨linkCid, link.name, link.tsize⟩)
  | none => .error .cid

/-- A `size_t` holds every `Tsize`. -/
def createFromRawBytes (input : Bytes) : Except DecodeError IPLDNodeImpl :=
  match PBNode.parse input with
  | none => .error .invalidRawBytes
  | some pbNode => do
    let node ← pbNode.links.foldlM readLink (createFromString pbNode.data)
    .ok (pbNode.destinations.foldl addDestination node)

end IPLDNodeImpl

/-! ## Calls on several nodes -/

/-- A node for every pointer; one that was not created yet is empty. -/
abbrev Nodes := ℕ → IPLDNodeImpl

inductive Call where
  | getCID (i : ℕ)
  | getRawBytes (i : ℕ)
  | size (i : ℕ)
  | assign (i : ℕ) (input : Bytes)
  | addChild (i : ℕ) (name : Bytes) (node : ℕ)
  | addLink (i : ℕ) (link : IPLDLink)
  | removeLink (i : ℕ) (linkName : Bytes)
  | addDestination (i : ℕ) (destination : Bytes)
  | removeDestination (i : ℕ) (destination : Bytes)
  | clearDestinations (i : ℕ)
  | createFromString (i : ℕ) (content : Bytes)
  | createFromRawBytes (i : ℕ) (input : Bytes)

namespace Nodes
variable (H : Hasher)

def initial : Nodes := fun _ => .empty

def modify (s : Nodes) (i : ℕ) (f : IPLDNodeImpl → IPLDNodeImpl) : Nodes := Function.update s i (f (s i))

/-- What `getCID`, `getRawBytes` and `size` leave behind. -/
def fill (s : Nodes) (i : ℕ) : Nodes := s.modify i fun n => (n.getIPLDBlock H).2

/-- Up to the second `node->size()`, which may find the node itself without its cache. -/
def addChildLink (s : Nodes) (i : ℕ) (name : Bytes) (node : ℕ) : Nodes :=
  let s' := s.fill H node
  s'.modify i fun n => n.addLink ⟨((s node).getCID H).1, name, ((s' node).size H).1⟩

def addChild (s : Nodes) (i : ℕ) (name : Bytes) (node : ℕ) : Nodes :=
  let linked := s.addChildLink H i name node
  (linked.fill H node).modify i fun n => { n with childNodesSize := n.childNodesSize + ((linked node).size H).1 }

def call (s : Nodes) : Call → Nodes
  | .getCID i | .getRawBytes i | .size i => s.fill H i
  | .assign i input => s.modify i fun n => n.assign input
  | .addChild i name node => s.addChild H i name node
  | .addLink i link => s.modify i fun n => n.addLink link
  | .removeLink i linkName => s.modify i fun n => n.removeLink linkName
  | .addDestination i destination => s.modify i fun n => n.addDestination destination
  | .removeDestination i destination => s.modify i fun n => n.removeDestination destination
  | .clearDestinations i => s.modify i fun n => n.clearDestinations
  | .createFromString i content => s.modify i fun _ => .createFromString content
  | .createFromRawBytes i input =>
    match IPLDNodeImpl.createFromRawBytes input with
    | .ok node => s.modify i fun _ => node
    | .error _ => s

/-- The nodes after some calls. -/
def after (calls : List Call) : Nodes := calls.foldl (call H) initial

end Nodes

/-! ## The invariant of a node -/

namespace IPLDNodeImpl
variable {H : Hasher}

/-- A cached block is that of the node as it is, and a link stands under its own name. -/
structure Valid (H : Hasher) (n : IPLDNodeImpl) : Prop where
  cached : ∀ block ∈ n.ipldBlock, block = .create H n
  named : ∀ e ∈ n.links.entries, e.2.name = e.1.str

theorem valid_empty : empty.Valid H := ⟨fun _ h => (Option.not_mem_none _ h).elim, fun _ h => (List.not_mem_nil h).elim⟩

/-- A mutator drops the cache. -/
theorem Valid.of_dropped {n : IPLDNodeImpl} (hblock : n.ipldBlock = none)
    (hnamed : ∀ e ∈ n.links.entries, e.2.name = e.1.str) : n.Valid H :=
  ⟨fun _ h => (Option.not_mem_none _ (hblock ▸ h)).elim, hnamed⟩

section
variable {n : IPLDNodeImpl}

theorem getIPLDBlock_eq (h : n.Valid H) : (n.getIPLDBlock H).1 = .create H n := by
  unfold getIPLDBlock
  cases hblock : n.ipldBlock with
  | none => rfl
  | some block => exact h.cached block hblock

/-- Filling the cache changes nothing else. -/
theorem getIPLDBlock_fields (h : n.Valid H) :
    (n.getIPLDBlock H).2 = { n with ipldBlock := some (.create H n) } := by
  obtain ⟨content, links, childNodesSize, ipldBlock, destinations⟩ := n
  cases ipldBlock with
  | none => rfl
  | some block =>
    simp only [← h.cached block rfl]
    rfl

theorem Valid.fill (h : n.Valid H) : (n.getIPLDBlock H).2.Valid H := by
  rw [getIPLDBlock_fields h]
  refine ⟨fun block hblock => ?_, h.named⟩
  rw [← Option.some.inj hblock]
  rfl

theorem getRawBytes_eq (h : n.Valid H) : (n.getRawBytes H).1 = n.serialize :=
  congrArg IPLDBlock.bytes (getIPLDBlock_eq h)

theorem getCID_eq (h : n.Valid H) : (n.getCID H).1 = ⟨.v0, Multicodec.dagPb, H.sha256 n.serialize⟩ :=
  congrArg IPLDBlock.cid (getIPLDBlock_eq h)

theorem size_eq (h : n.Valid H) : (n.size H).1 = UInt64.ofNat n.serialize.length + n.childNodesSize := by
  have hchild : (n.getIPLDBlock H).2.childNodesSize = n.childNodesSize := by rw [getIPLDBlock_fields h]
  rw [← getRawBytes_eq h, ← hchild]
  rfl

theorem named_addLink {link : IPLDLink} (h : ∀ e ∈ n.links.entries, e.2.name = e.1.str) :
    ∀ e ∈ (n.addLink link).links.entries, e.2.name = e.1.str := by
  intro e he
  have hfind : (n.addLink link).links.find? e.1 = some e.2 := (OrdMap.find?_some_iff _ _ _).mpr he
  rw [addLink, OrdMap.find?_emplace] at hfind
  split_ifs at hfind with hkey
  · cases hold : n.links.find? ⟨link.name⟩ with
    | none =>
      rw [hold] at hfind
      rw [hkey, ← Option.some.inj hfind]
      rfl
    | some old =>
      rw [hold] at hfind
      have heq := Option.some.inj hfind
      rw [hkey, ← heq]
      exact h (⟨link.name⟩, old) ((OrdMap.find?_some_iff _ _ _).mp hold)
  · exact h e ((OrdMap.find?_some_iff _ _ _).mp hfind)

theorem named_removeLink (h : ∀ e ∈ n.links.entries, e.2.name = e.1.str) (linkName : Bytes) :
    ∀ e ∈ (n.removeLink linkName).links.entries, e.2.name = e.1.str := by
  intro e he
  unfold removeLink at he
  cases hfind : n.links.find? ⟨linkName⟩ with
  | none =>
    rw [hfind] at he
    exact h e he
  | some link =>
    rw [hfind] at he
    exact h e (List.mem_filter.mp he).1

theorem Valid.assign (h : n.Valid H) (input : Bytes) : (n.assign input).Valid H := .of_dropped rfl h.named

theorem Valid.addLink (h : n.Valid H) (link : IPLDLink) : (n.addLink link).Valid H :=
  .of_dropped rfl (named_addLink h.named)

/-- When there is no such link the cache stays. -/
theorem Valid.removeLink (h : n.Valid H) (linkName : Bytes) : (n.removeLink linkName).Valid H := by
  have hnamed := named_removeLink h.named linkName
  unfold IPLDNodeImpl.removeLink at hnamed ⊢
  cases hfind : n.links.find? ⟨linkName⟩ with
  | none => exact h
  | some link =>
    rw [hfind] at hnamed
    exact .of_dropped rfl hnamed

theorem Valid.addDestination (h : n.Valid H) (destination : Bytes) : (n.addDestination destination).Valid H :=
  .of_dropped rfl h.named

theorem Valid.removeDestination (h : n.Valid H) (destination : Bytes) : (n.removeDestination destination).Valid H :=
  .of_dropped rfl h.named

theorem Valid.clearDestinations (h : n.Valid H) : n.clearDestinations.Valid H := .of_dropped rfl h.named

/-- The total is no part of the block. -/
theorem Valid.childNodesSize (h : n.Valid H) (total : UInt64) : Valid H { n with childNodesSize := total } :=
  ⟨h.cached, h.named⟩

theorem valid_createFromString (content : Bytes) : (createFromString content).Valid H := valid_empty.assign content

theorem readLink_ok {link : PBLink} {n' : IPLDNodeImpl} (h : n.readLink link = .ok n') :
    ∃ linkCid, CID.fromBytes link.hash = some linkCid ∧ n' = n.addLink ⟨linkCid, link.name, link.tsize⟩ := by
  unfold readLink at h
  cases hcid : CID.fromBytes link.hash with
  | none =>
    rw [hcid] at h
    cases h
  | some linkCid =>
    rw [hcid] at h
    exact ⟨linkCid, rfl, (ok_inj h).symm⟩

theorem Valid.readLinks {links : List PBLink} {n' : IPLDNodeImpl} (h : n.Valid H)
    (hread : links.foldlM readLink n = .ok n') : n'.Valid H := by
  induction links generalizing n with
  | nil =>
    rw [List.foldlM_nil] at hread
    exact ok_inj hread ▸ h
  | cons link links ih =>
    rw [List.foldlM_cons] at hread
    obtain ⟨n₁, hlink, hread⟩ := bind_ok hread
    obtain ⟨linkCid, -, rfl⟩ := readLink_ok hlink
    exact ih (h.addLink _) hread

theorem Valid.addDestinations (h : n.Valid H) (destinations : List Bytes) :
    (destinations.foldl IPLDNodeImpl.addDestination n).Valid H := by
  induction destinations generalizing n with
  | nil => exact h
  | cons d destinations ih => exact ih (h.addDestination d)

theorem valid_createFromRawBytes {input : Bytes} {n : IPLDNodeImpl} (h : createFromRawBytes input = .ok n) :
    n.Valid H := by
  unfold createFromRawBytes at h
  cases hparse : PBNode.parse input with
  | none =>
    rw [hparse] at h
    cases h
  | some pbNode =>
    rw [hparse] at h
    obtain ⟨node, hlinks, h⟩ := bind_ok h
    rw [← ok_inj h]
    exact ((valid_createFromString pbNode.data).readLinks hlinks).addDestinations pbNode.destinations

end
end IPLDNodeImpl

/-! ## Every node that is reached -/

namespace Nodes
variable {H : Hasher} {s : Nodes}

def Valid (H : Hasher) (s : Nodes) : Prop := ∀ i, (s i).Valid H

theorem Valid.modify (h : s.Valid H) (i : ℕ) {f : IPLDNodeImpl → IPLDNodeImpl}
    (hf : ∀ n : IPLDNodeImpl, n.Valid H → (f n).Valid H) : (s.modify i f).Valid H := by
  intro j
  by_cases hj : j = i
  · subst hj
    rw [Nodes.modify, Function.update_self]
    exact hf _ (h j)
  · rw [Nodes.modify, Function.update_of_ne hj]
    exact h j

theorem Valid.fill (h : s.Valid H) (i : ℕ) : (s.fill H i).Valid H := h.modify i fun _ hn => hn.fill

/-- Also when the node is added to itself: the second `size` fills the cache after the link is there. -/
theorem Valid.addChild (h : s.Valid H) (i : ℕ) (name : Bytes) (node : ℕ) : (s.addChild H i name node).Valid H := by
  have hlinked : (s.addChildLink H i name node).Valid H := (h.fill node).modify i fun _ hn => hn.addLink _
  exact (hlinked.fill node).modify i fun _ hn => hn.childNodesSize _

theorem Valid.call (h : s.Valid H) (c : Call) : (s.call H c).Valid H := by
  cases c with
  | getCID i | getRawBytes i | size i => exact h.fill i
  | assign i input => exact h.modify i fun _ hn => hn.assign input
  | addChild i name node => exact h.addChild i name node
  | addLink i link => exact h.modify i fun _ hn => hn.addLink link
  | removeLink i linkName => exact h.modify i fun _ hn => hn.removeLink linkName
  | addDestination i destination => exact h.modify i fun _ hn => hn.addDestination destination
  | removeDestination i destination => exact h.modify i fun _ hn => hn.removeDestination destination
  | clearDestinations i => exact h.modify i fun _ hn => hn.clearDestinations
  | createFromString i content => exact h.modify i fun _ _ => IPLDNodeImpl.valid_createFromString content
  | createFromRawBytes i input =>
    rw [Nodes.call]
    cases hread : IPLDNodeImpl.createFromRawBytes input with
    | error e => exact h
    | ok node => exact h.modify i fun _ _ => IPLDNodeImpl.valid_createFromRawBytes hread

theorem valid_after (H : Hasher) (calls : List Call) : (after H calls).Valid H := by
  have hrun : ∀ s : Nodes, s.Valid H → (calls.foldl (call H) s).Valid H := by
    induction calls with
    | nil => exact fun s h => h
    | cons c calls ih => exact fun s h => ih _ (h.call c)
  exact hrun initial fun _ => IPLDNodeImpl.valid_empty

end Nodes

/-- Removing a link and adding it again gives the same links. -/
theorem IPLDNodeImpl.readd_links {n : IPLDNodeImpl} {H : Hasher} (h : n.Valid H) {name : Bytes} {link : IPLDLink}
    (hlink : n.getLink name = .ok link) : ((n.removeLink name).addLink link).links = n.links := by
  unfold getLink at hlink
  cases hfind : n.links.find? ⟨name⟩ with
  | none =>
    rw [hfind] at hlink
    cases hlink
  | some link' =>
    rw [hfind] at hlink
    obtain rfl := ok_inj hlink
    have hname : link'.name = name := h.named (⟨name⟩, link') ((OrdMap.find?_some_iff _ _ _).mp hfind)
    simp only [removeLink, hfind, addLink, hname]
    refine OrdMap.ext_find? fun k => ?_
    rw [OrdMap.find?_emplace, OrdMap.find?_erase, OrdMap.find?_erase, if_pos rfl]
    by_cases hk : k = ⟨name⟩
    · rw [if_pos hk, hk, hfind]
      rfl
    · rw [if_neg hk, if_neg hk]

/-- **The cache is coherent**: after any calls on any nodes, a node added to itself included, the raw bytes are the
serialized fields and the CID is that of these bytes; a link that is removed and added again restores both. -/
theorem cache_coherent (H : Hasher) (calls : List Call) (i : ℕ) :
    let n := Nodes.after H calls i
    (n.getRawBytes H).1 = n.serialize ∧
    (n.getCID H).1 = ⟨.v0, Multicodec.dagPb, H.sha256 n.serialize⟩ ∧
    ∀ name link, n.getLink name = .ok link →
      let restored := (n.removeLink name).addLink link
      (restored.getRawBytes H).1 = (n.getRawBytes H).1 ∧ (restored.getCID H).1 = (n.getCID H).1 := by
  intro n
  have hvalid : n.Valid H := Nodes.valid_after H calls i
  refine ⟨IPLDNodeImpl.getRawBytes_eq hvalid, IPLDNodeImpl.getCID_eq hvalid, ?_⟩
  intro name link hlink restored
  have hrestored : restored.Valid H := (hvalid.removeLink name).addLink link
  have hserialize : restored.serialize = n.serialize := by
    have hlinks : restored.links = n.links := IPLDNodeImpl.readd_links hvalid hlink
    have hfields : restored.content = n.content ∧ restored.destinations = n.destinations := by
      simp only [restored, IPLDNodeImpl.removeLink]
      cases n.links.find? ⟨name⟩ <;> exact ⟨rfl, rfl⟩
    rw [IPLDNodeImpl.serialize, IPLDNodeImpl.serialize, hlinks, hfields.1, hfields.2]
  rw [IPLDNodeImpl.getRawBytes_eq hrestored, IPLDNodeImpl.getRawBytes_eq hvalid, IPLDNodeImpl.getCID_eq hrestored,
    IPLDNodeImpl.getCID_eq hvalid, hserialize]
  exact ⟨rfl, rfl⟩

end Ipld
end IpfsLite
