import IpfsLite.Foundations.Unfolding
import IpfsLite.Ipld.Node

/-! # The MerkleDAG service

`MerkleDagServiceImpl` and `Leaf` (`ipfs/merkledag`). The block service and the node getter are functions of the CID;
what is requested from the getter and handed to the handler is kept, in order. The recursion of `buildGraph` is
bounded by fuel, which is not in the source: a graph with a cycle and no depth has no end. -/
namespace IpfsLite.Merkledag
set_option autoImplicit false

open Codec (StringKey)
open Fallible
open Ipld

/-! ## `Leaf` -/

/-- The content and the children, a map by their names. -/
abbrev Leaf := Unfolding.Tree StringKey Bytes

inductive LeafError where
  | leafNotFound
  | duplicateLeaf
  deriving DecidableEq, Repr

namespace Leaf

def content (leaf : Leaf) : Bytes := leaf.value

def count (leaf : Leaf) : ℕ := leaf.children.length

def subLeaf (leaf : Leaf) (name : Bytes) : Except LeafError Leaf :=
  match leaf.children.find? fun e => e.1 = ⟨name⟩ with
  | some e => .ok e.2
  | none => .error .leafNotFound

/-- `children_.emplace`. -/
def insertSubLeaf (leaf : Leaf) (name : Bytes) (children : Leaf) : Except LeafError Leaf :=
  if leaf.children.any fun e => e.1 = ⟨name⟩ then .error .duplicateLeaf
  else .ok (.node leaf.value (leaf.children.filter (fun e => e.1 < ⟨name⟩) ++ (⟨name⟩, children) ::
    leaf.children.filter fun e => ⟨name⟩ < e.1))

end Leaf

/-! ## `getNode` and `addNode` -/

inductive ServiceError where
  | unresolvedLink
  deriving DecidableEq, Repr

/-- The errors of the block service and of the decoder. -/
inductive NodeError (ε : Type) where
  | store (e : ε)
  | decode (e : IPLDNodeImpl.DecodeError)
  deriving DecidableEq

variable {ε : Type}

def getNode (get : CID → Except ε Bytes) (cid : CID) : Except (NodeError ε) IPLDNodeImpl :=
  match get cid with
  | .error e => .error (.store e)
  | .ok content => (IPLDNodeImpl.createFromRawBytes content).mapError .decode

/-- What `addNode` passes to `set`. -/
def addNode (H : Hasher) (node : IPLDNodeImpl) : CID × Bytes := ((node.getCID H).1, (node.getRawBytes H).1)

/-! ## The nodes that are read -/

/-- Names that increase, as in the links of a node. -/
def Named (links : List IPLDLink) : Prop := links.Pairwise fun a b => StringKey.mk a.name < StringKey.mk b.name

section
variable {get : CID → Except ε Bytes} {cid : CID}

/-- The names of a node that was read increase. -/
theorem named_of_getNode {node : IPLDNodeImpl} (h : getNode get cid = .ok node) : Named node.getLinks := by
  rw [getNode] at h
  cases hget : get cid with
  | error e =>
    rw [hget] at h
    cases h
  | ok content =>
    rw [hget] at h
    have hread : IPLDNodeImpl.createFromRawBytes content = .ok node := by
      cases hread : IPLDNodeImpl.createFromRawBytes content with
      | error e =>
        simp only [hread] at h
        cases h
      | ok node' =>
        simp only [hread] at h
        rw [ok_inj h]
    have hname := (IPLDNodeImpl.valid_createFromRawBytes (H := default) hread).named
    refine List.pairwise_map.mpr (node.links.sorted.imp_of_mem fun {a b} ha hb hlt => ?_)
    rw [hname a ha, hname b hb]
    exact hlt

end

/-! ## `select` -/

inductive SelectError (ε : Type) where
  /-- an error of `ContentIdentifierCodec` -/
  | cid
  | getNode (e : NodeError ε)
  | service (e : ServiceError)
  deriving DecidableEq

/-- The nodes behind the links. -/
def collect (get : CID → Except ε Bytes) (nodeSet : List IPLDNodeImpl) (link : IPLDLink) :
    Except (SelectError ε) (List IPLDNodeImpl) :=
  match getNode get link.cid with
  | .error _ => .error (.service .unresolvedLink)
  | .ok node => .ok (nodeSet ++ [node])

/-- The loop that counts the calls of the handler, which may look back on all of them. -/
def handOver (handler : List IPLDNodeImpl → Bool) :
    List IPLDNodeImpl → ℕ → List IPLDNodeImpl → List IPLDNodeImpl × ℕ
  | handed, sentCount, [] => (handed, sentCount)
  | handed, sentCount, node :: nodeSet =>
    if handler (handed ++ [node]) then handOver handler (handed ++ [node]) (sentCount + 1) nodeSet
    else (handed ++ [node], sentCount + 1)

/-- The nodes handed over, and what is returned. -/
def select (get : CID → Except ε Bytes) (rootCid _selector : Bytes) (handler : List IPLDNodeImpl → Bool) :
    List IPLDNodeImpl × Except (SelectError ε) ℕ :=
  match CID.fromBytes rootCid with
  | none => ([], .error .cid)
  | some cid =>
    match getNode get cid with
    | .error e => ([], .error (.getNode e))
    | .ok rootNode =>
      match rootNode.getLinks.foldlM (collect get) [rootNode] with
      | .error e => ([], .error e)
      | .ok nodeSet =>
        let (handed, sentCount) := handOver handler [] 0 nodeSet
        (handed, .ok sentCount)

/-- The nodes are handed over in order until one is refused. -/
theorem handOver_spec (handler : List IPLDNodeImpl → Bool) (handed : List IPLDNodeImpl) (sentCount : ℕ)
    (nodeSet : List IPLDNodeImpl) :
    ∃ m ≤ nodeSet.length,
      handOver handler handed sentCount nodeSet = (handed ++ nodeSet.take m, sentCount + m) ∧
      (∀ j, 0 < j → j < m → handler (handed ++ nodeSet.take j) = true) ∧
      (m < nodeSet.length → 0 < m ∧ handler (handed ++ nodeSet.take m) = false) := by
  induction nodeSet generalizing handed sentCount with
  | nil => exact ⟨0, le_rfl, by simp [handOver], by omega, by simp⟩
  | cons node nodeSet ih =>
    rw [handOver]
    cases haccepted : handler (handed ++ [node]) with
    | false =>
      refine ⟨1, by simp, ?_, by omega, fun _ => ⟨Nat.one_pos, by simpa using haccepted⟩⟩
      rw [if_neg Bool.false_ne_true]
      simp
    | true =>
      obtain ⟨m, hm, heq, hbefore, hlast⟩ := ih (handed ++ [node]) (sentCount + 1)
      refine ⟨m + 1, by simpa using hm, ?_, ?_, ?_⟩
      · rw [if_pos rfl, heq]
        simp only [List.append_assoc, List.singleton_append, List.take_succ_cons, Prod.mk.injEq, true_and]
        omega
      · rintro (_ | _ | j) hj hlt
        · omega
        · simpa using haccepted
        · have hnext := hbefore (j + 1) (by omega) (by omega)
          simpa using hnext
      · intro hlt
        obtain ⟨-, hrefused⟩ := hlast (by simpa using hlt)
        exact ⟨Nat.succ_pos m, by simpa using hrefused⟩

section
variable {get : CID → Except ε Bytes}

/-- Child after child is read. -/
theorem collect_ok {links : List IPLDLink} {nodeSet nodeSet' : List IPLDNodeImpl}
    (h : links.foldlM (collect get) nodeSet = .ok nodeSet') : ∃ children, nodeSet' = nodeSet ++ children ∧
      List.Forall₂ (fun link child => getNode get link.cid = .ok child) links children := by
  induction links generalizing nodeSet with
  | nil =>
    rw [List.foldlM_nil] at h
    exact ⟨[], by rw [← ok_inj h, List.append_nil], .nil⟩
  | cons link links ih =>
    rw [List.foldlM_cons] at h
    obtain ⟨collected, hfirst, h⟩ := bind_ok h
    obtain ⟨children, rfl, hchildren⟩ := ih h
    rw [collect] at hfirst
    cases hchild : getNode get link.cid with
    | error e =>
      rw [hchild] at hfirst
      cases hfirst
    | ok child =>
      rw [hchild] at hfirst
      exact ⟨child :: children, by rw [← ok_inj hfirst, List.append_assoc, List.singleton_append], .cons hchild hchildren⟩

theorem collect_error {links : List IPLDLink} {nodeSet : List IPLDNodeImpl} {e : SelectError ε}
    (h : links.foldlM (collect get) nodeSet = .error e) :
    e = .service .unresolvedLink ∧ ∃ link ∈ links, ∃ e', getNode get link.cid = .error e' := by
  induction links generalizing nodeSet with
  | nil => cases h
  | cons link links ih =>
    rw [List.foldlM_cons] at h
    obtain h | ⟨collected, -, h⟩ := bind_error h
    · rw [collect] at h
      cases hchild : getNode get link.cid with
      | error e' =>
        rw [hchild] at h
        exact ⟨(Except.error.inj h).symm, link, List.mem_cons_self, e', hchild⟩
      | ok child =>
        rw [hchild] at h
        cases h
    · obtain ⟨he, link', hlink', hmissing⟩ := ih h
      exact ⟨he, link', List.mem_cons_of_mem link hlink', hmissing⟩

/-- **All or nothing**: when the root and every child are found they are handed over, the root first and the children
by their names, up to the first that is refused, and counted; otherwise the handler is not called. -/
theorem select_all_or_nothing (get : CID → Except ε Bytes) (rootCid selector : Bytes)
    (handler : List IPLDNodeImpl → Bool) :
    let r := select get rootCid selector handler
    (∀ e, r.2 = .error e → r.1 = [] ∧ ∀ cid root, CID.fromBytes rootCid = some cid → getNode get cid = .ok root →
      e = .service .unresolvedLink ∧ ∃ link ∈ root.getLinks, ∃ e', getNode get link.cid = .error e') ∧
    ∀ sentCount, r.2 = .ok sentCount → ∃ cid root children,
      CID.fromBytes rootCid = some cid ∧ getNode get cid = .ok root ∧ Named root.getLinks ∧
      List.Forall₂ (fun link child => getNode get link.cid = .ok child) root.getLinks children ∧
      0 < sentCount ∧ r.1 = (root :: children).take sentCount ∧ r.1.length = sentCount ∧
      (∀ j, 0 < j → j < sentCount → handler ((root :: children).take j) = true) ∧
      (sentCount ≤ children.length → handler r.1 = false) := by
  intro r
  cases hcid : CID.fromBytes rootCid with
  | none =>
    have hr : r = ([], .error .cid) := by simp only [r, select, hcid]
    rw [hr]
    refine ⟨fun e _ => ⟨rfl, fun cid root h => ?_⟩, fun sentCount h => ?_⟩
    · cases h
    · cases h
  | some cid =>
    cases hroot : getNode get cid with
    | error e' =>
      have hr : r = ([], .error (.getNode e')) := by simp only [r, select, hcid, hroot]
      rw [hr]
      refine ⟨fun e _ => ⟨rfl, fun cid' root h hread => ?_⟩, fun sentCount h => ?_⟩
      · rw [← Option.some.inj h, hroot] at hread
        cases hread
      · cases h
    | ok root =>
      cases hset : root.getLinks.foldlM (collect get) [root] with
      | error e' =>
        have hr : r = ([], .error e') := by simp only [r, select, hcid, hroot, hset]
        rw [hr]
        refine ⟨fun e he => ⟨rfl, fun cid' root' h hread => ?_⟩, fun sentCount h => ?_⟩
        · rw [← Option.some.inj h, hroot] at hread
          rw [← ok_inj hread, ← Except.error.inj he]
          exact collect_error hset
        · cases h
      | ok nodeSet =>
        obtain ⟨children, rfl, hchildren⟩ := collect_ok hset
        obtain ⟨m, hm, hsent, hbefore, hlast⟩ := handOver_spec handler [] 0 ([root] ++ children)
        simp only [List.singleton_append, List.nil_append, Nat.zero_add] at hm hsent hbefore hlast hset
        have hr : r = ((root :: children).take m, .ok m) := by simp only [r, select, hcid, hroot, hset, hsent]
        rw [hr]
        refine ⟨fun e he => ?_, fun sentCount h => ?_⟩
        · cases he
        · obtain rfl := ok_inj h
          refine ⟨cid, root, children, rfl, hroot, named_of_getNode hroot, hchildren, ?_, rfl, ?_, hbefore, ?_⟩
          · by_contra hzero
            exact hzero (hlast (by rw [List.length_cons]; omega)).1
          · exact List.length_take_of_le hm
          · intro hle
            exact (hlast (Nat.lt_succ_of_le hle)).2

end

/-! ## `fetchGraph` -/

inductive FetchError (ε : Type) where
  | getter (e : ε)
  | service (e : ServiceError)
  | leaf (e : LeafError)
  deriving DecidableEq

inductive Stop (ε : Type) where
  | error (e : FetchError ε)
  /-- the fuel does not suffice -/
  | running
  deriving DecidableEq

/-- The CIDs that were requested, and the outcome. -/
structure Fetch (ε α : Type) where
  requested : List CID
  outcome : Except (Stop ε) α

namespace Fetch

def stop {α : Type} (s : Stop ε) : Fetch ε α := ⟨[], .error s⟩

instance : Monad (Fetch ε) where
  pure a := ⟨[], .ok a⟩
  bind x f :=
    match x.outcome with
    | .ok a => ⟨x.requested ++ (f a).requested, (f a).outcome⟩
    | .error s => ⟨x.requested, .error s⟩

end Fetch

def request (nodeGetter : CID → Except ε IPLDNodeImpl) (cid : CID) : Fetch ε (Except ε IPLDNodeImpl) :=
  ⟨[cid], .ok (nodeGetter cid)⟩

/-- One turn of the loop of `buildGraph`. -/
def buildLink (nodeGetter : CID → Except ε IPLDNodeImpl) (build : Leaf → List IPLDLink → Fetch ε Leaf) (root : Leaf)
    (link : IPLDLink) : Fetch ε Leaf := do
  match ← request nodeGetter link.cid with
  | .error _ => .stop (.error (.service .unresolvedLink))
  | .ok node =>
    let childLeaf ← build (.node node.content []) node.getLinks
    match root.insertSubLeaf link.name childLeaf with
    | .error e => .stop (.error (.leaf e))
    | .ok root => pure root

/-- The leaf with the children behind the links. -/
def buildGraph (nodeGetter : CID → Except ε IPLDNodeImpl) : ℕ → Leaf → List IPLDLink → Option ℕ → ℕ → Fetch ε Leaf
  | 0, _, _, _, _ => .stop .running
  | fuel + 1, root, links, maxDepth, currentDepth =>
    if maxDepth = some currentDepth then pure root
    else links.foldlM (buildLink nodeGetter fun leaf links =>
      buildGraph nodeGetter fuel leaf links maxDepth (currentDepth + 1)) root

def fetchGraphOnDepth (fuel : ℕ) (nodeGetter : CID → Except ε IPLDNodeImpl) (cid : CID) (depth : Option ℕ) :
    Fetch ε Leaf := do
  match ← request nodeGetter cid with
  | .error e => .stop (.error (.getter e))
  | .ok node => buildGraph nodeGetter fuel (.node node.content []) node.getLinks depth 0

def fetchGraph (fuel : ℕ) (get : CID → Except ε Bytes) (cid : CID) : Fetch (NodeError ε) Leaf :=
  fetchGraphOnDepth fuel (getNode get) cid none

end IpfsLite.Merkledag
