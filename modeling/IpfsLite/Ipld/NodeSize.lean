import IpfsLite.Foundations.Runs
import IpfsLite.Ipld.Node

/-! # The size of a node

`size()` adds to the raw bytes a running total, `child_nodes_size_`. `addChild` adds to the total whether or not the
link is taken, `removeLink` takes off the size that the link says, `addLink` and `createFromRawBytes` leave it
alone: it is the sum over the links in the runs that never use a path that the other does not account for. -/
namespace IpfsLite.Ipld
set_option autoImplicit false

open Codec (StringKey)

/-- `getSize()` summed over the links. -/
def linksTotal (links : Links) : ℕ := links.total fun link => link.size.toNat

/-- The running total is that of the links, without an overflow. -/
def IPLDNodeImpl.Sized (n : IPLDNodeImpl) : Prop := n.childNodesSize.toNat = linksTotal n.links

namespace Nodes
variable (H : Hasher)

def Sized (s : Nodes) : Prop := ∀ i, (s i).Sized

/-- What a call must not do, for the total to follow the links. -/
def Counted (s : Nodes) : Call → Prop
  | .addChild i name node =>
    let size := ((s node).size H).1
    let again := ((s.addChildLink H i name node node).size H).1
    if (s i).links.contains ⟨name⟩ then again = 0
    else again = size ∧ linksTotal (s i).links + size.toNat < 2 ^ 64
  | .addLink i link => (s i).links.contains ⟨link.name⟩ = true ∨ link.size = 0
  | .createFromRawBytes _ input =>
    ∀ node, IPLDNodeImpl.createFromRawBytes input = .ok node → ∀ e ∈ node.links.entries, e.2.size = 0
  | _ => True

/-- Every call is enabled. -/
def step (s : Nodes) (c : Call) : Option Nodes := some (s.call H c)

end Nodes

/-! ## One node -/

namespace IPLDNodeImpl
variable {n : IPLDNodeImpl}

@[simp] theorem fill_links (H : Hasher) : (n.getIPLDBlock H).2.links = n.links := by
  unfold getIPLDBlock
  cases n.ipldBlock <;> rfl

@[simp] theorem fill_childNodesSize (H : Hasher) : (n.getIPLDBlock H).2.childNodesSize = n.childNodesSize := by
  unfold getIPLDBlock
  cases n.ipldBlock <;> rfl

theorem toNat_eq_zero {size : UInt64} : size.toNat = 0 ↔ size = 0 := by
  rw [← UInt64.toNat_inj]
  rfl

theorem linksTotal_addLink_new {link : IPLDLink} (h : n.links.contains ⟨link.name⟩ = false) :
    linksTotal (n.addLink link).links = link.size.toNat + linksTotal n.links :=
  OrdMap.total_emplace h link _

theorem links_addLink_old {link : IPLDLink} (h : n.links.contains ⟨link.name⟩ = true) :
    (n.addLink link).links = n.links := if_pos h

theorem sized_addLink {link : IPLDLink} (h : n.Sized) :
    (n.addLink link).Sized ↔ n.links.contains ⟨link.name⟩ = true ∨ link.size = 0 := by
  unfold Sized at h ⊢
  rw [show (n.addLink link).childNodesSize = n.childNodesSize from rfl, h]
  cases hname : n.links.contains ⟨link.name⟩ with
  | true => simp [links_addLink_old hname]
  | false =>
    rw [linksTotal_addLink_new hname, ← toNat_eq_zero]
    simp

/-- The size that is taken off is part of the total. -/
theorem sized_removeLink {linkName : Bytes} (h : n.Sized) : (n.removeLink linkName).Sized := by
  unfold removeLink
  cases hfind : n.links.find? ⟨linkName⟩ with
  | none => exact h
  | some link =>
    have htotal : linksTotal n.links = link.size.toNat + linksTotal (n.links.erase ⟨linkName⟩) :=
      OrdMap.total_erase hfind _
    unfold Sized at h ⊢
    have hle : link.size ≤ n.childNodesSize := by
      rw [UInt64.le_iff_toNat_le]
      omega
    have hsub : (n.childNodesSize - link.size).toNat = n.childNodesSize.toNat - link.size.toNat :=
      UInt64.toNat_sub_of_le _ _ hle
    simp only [hsub]
    omega

/-- Filling the cache does not change what `size` returns. -/
theorem size_fill (H : Hasher) : ((n.getIPLDBlock H).2.size H).1 = (n.size H).1 := by
  obtain ⟨content, links, childNodesSize, ipldBlock, destinations⟩ := n
  cases ipldBlock <;> rfl

/-- A total that grows by `added` after a link of size `size` was put in. -/
theorem sized_counted {link : IPLDLink} {added : UInt64} (h : n.Sized) :
    Sized { n.addLink link with childNodesSize := n.childNodesSize + added } ↔
      if n.links.contains ⟨link.name⟩ then added = 0
      else added = link.size ∧ linksTotal n.links + link.size.toNat < 2 ^ 64 := by
  unfold Sized at h ⊢
  change (n.childNodesSize + added).toNat = linksTotal (n.addLink link).links ↔ _
  cases hname : n.links.contains ⟨link.name⟩ with
  | true =>
    rw [links_addLink_old hname, ← h, if_pos rfl, UInt64.toNat_inj]
    exact add_eq_left
  | false =>
    rw [linksTotal_addLink_new hname, ← h, if_neg Bool.false_ne_true]
    constructor
    · intro htotal
      have hlt : link.size.toNat + n.childNodesSize.toNat < 2 ^ 64 := htotal ▸ UInt64.toNat_lt _
      have hsum : n.childNodesSize + added = n.childNodesSize + link.size := by
        rw [← UInt64.toNat_inj, htotal, UInt64.toNat_add, Nat.mod_eq_of_lt (by omega), Nat.add_comm]
      exact ⟨add_left_cancel hsum, by omega⟩
    · rintro ⟨rfl, hlt⟩
      rw [UInt64.toNat_add, Nat.mod_eq_of_lt hlt, Nat.add_comm]

open Fallible in
/-- Links that are read add nothing to the total. -/
theorem childNodesSize_readLinks {links : List PBLink} {n' : IPLDNodeImpl} (h : links.foldlM readLink n = .ok n') :
    n'.childNodesSize = n.childNodesSize := by
  induction links generalizing n with
  | nil =>
    rw [List.foldlM_nil] at h
    rw [← ok_inj h]
  | cons link links ih =>
    rw [List.foldlM_cons] at h
    obtain ⟨n₁, hlink, h⟩ := bind_ok h
    obtain ⟨linkCid, -, rfl⟩ := readLink_ok hlink
    exact (ih h).trans rfl

theorem childNodesSize_addDestinations (destinations : List Bytes) :
    (destinations.foldl addDestination n).childNodesSize = n.childNodesSize := by
  induction destinations generalizing n with
  | nil => rfl
  | cons d destinations ih => exact ih.trans rfl

open Fallible in
theorem sized_createFromRawBytes {input : Bytes} (h : createFromRawBytes input = .ok n) :
    n.Sized ↔ ∀ e ∈ n.links.entries, e.2.size = 0 := by
  have htotal : n.childNodesSize = 0 := by
    unfold createFromRawBytes at h
    cases hparse : PBNode.parse input with
    | none =>
      rw [hparse] at h
      cases h
    | some pbNode =>
      rw [hparse] at h
      obtain ⟨node, hlinks, h⟩ := bind_ok h
      rw [← ok_inj h, childNodesSize_addDestinations, childNodesSize_readLinks hlinks]
      rfl
  rw [Sized, htotal, linksTotal, eq_comm]
  refine OrdMap.total_eq_zero.trans (forall₂_congr fun e _ => ?_)
  exact toNat_eq_zero

end IPLDNodeImpl

/-! ## Several nodes -/

namespace Nodes
variable {H : Hasher} {s : Nodes}

/-- One node is changed, the others keep their totals. -/
theorem sized_modify {i : ℕ} {f : IPLDNodeImpl → IPLDNodeImpl} (h : ∀ j, j ≠ i → (s j).Sized) :
    (s.modify i f).Sized ↔ (f (s i)).Sized := by
  constructor
  · intro hall
    have hi := hall i
    rwa [modify, Function.update_self] at hi
  · intro hi j
    by_cases hj : j = i
    · rw [hj, modify, Function.update_self]
      exact hi
    · rw [modify, Function.update_of_ne hj]
      exact h j hj

theorem Sized.fill (h : s.Sized) (i : ℕ) : (s.fill H i).Sized := by
  refine (sized_modify fun j _ => h j).mpr ?_
  rw [IPLDNodeImpl.Sized, IPLDNodeImpl.fill_links, IPLDNodeImpl.fill_childNodesSize]
  exact h i

/-- Apart from the caches, a filled heap is the same. -/
theorem fill_apply (i j : ℕ) :
    ((s.fill H i) j).links = (s j).links ∧ ((s.fill H i) j).childNodesSize = (s j).childNodesSize ∧
      (((s.fill H i) j).size H).1 = ((s j).size H).1 := by
  rw [Nodes.fill, modify]
  by_cases hj : j = i
  · rw [hj, Function.update_self]
    exact ⟨IPLDNodeImpl.fill_links H, IPLDNodeImpl.fill_childNodesSize H, IPLDNodeImpl.size_fill H⟩
  · rw [Function.update_of_ne hj]
    exact ⟨rfl, rfl, rfl⟩

theorem sized_addChild (h : s.Sized) (i : ℕ) (name : Bytes) (node : ℕ) :
    (s.addChild H i name node).Sized ↔ s.Counted H (.addChild i name node) := by
  let link : IPLDLink := ⟨((s node).getCID H).1, name, (((s.fill H node) node).size H).1⟩
  let linked := s.addChildLink H i name node
  have hsize : link.size = ((s node).size H).1 := (fill_apply node node).2.2
  -- the caches apart, the link is all that is new
  have hother : ∀ j, j ≠ i → ((linked.fill H node) j).Sized := by
    intro j hj
    have hlinked : linked j = (s.fill H node) j := Function.update_of_ne hj _ _
    obtain ⟨hlinks, htotal, -⟩ := fill_apply (H := H) (s := linked) node j
    obtain ⟨hlinks', htotal', -⟩ := fill_apply (H := H) (s := s) node j
    rw [IPLDNodeImpl.Sized, hlinks, htotal, hlinked, hlinks', htotal']
    exact h j
  have hself : ((linked.fill H node) i).links = ((s i).addLink link).links ∧
      ((linked.fill H node) i).childNodesSize = (s i).childNodesSize := by
    have hlinked : linked i = ((s.fill H node) i).addLink link := Function.update_self _ _ _
    obtain ⟨hlinks, htotal, -⟩ := fill_apply (H := H) (s := linked) node i
    obtain ⟨hlinks', htotal', -⟩ := fill_apply (H := H) (s := s) node i
    rw [hlinks, htotal, hlinked, IPLDNodeImpl.addLink, IPLDNodeImpl.addLink, hlinks', ← htotal']
    exact ⟨rfl, rfl⟩
  rw [addChild, sized_modify hother, IPLDNodeImpl.Sized, hself.1, hself.2, Counted, ← hsize]
  exact IPLDNodeImpl.sized_counted (h i)

theorem sized_call (h : s.Sized) (c : Call) : (s.call H c).Sized ↔ s.Counted H c := by
  have hkeep : ∀ {i : ℕ} {f : IPLDNodeImpl → IPLDNodeImpl}, (f (s i)).Sized → ((s.modify i f).Sized ↔ True) :=
    fun hf => iff_true_intro ((sized_modify fun j _ => h j).mpr hf)
  cases c with
  | getCID i | getRawBytes i | size i => exact iff_true_intro (h.fill i)
  | assign i input => exact hkeep (h i)
  | addChild i name node => exact sized_addChild h i name node
  | addLink i link => exact (sized_modify fun j _ => h j).trans (IPLDNodeImpl.sized_addLink (h i))
  | removeLink i linkName => exact hkeep (IPLDNodeImpl.sized_removeLink (h i))
  | addDestination i destination => exact hkeep (h i)
  | removeDestination i destination => exact hkeep (h i)
  | clearDestinations i => exact hkeep (h i)
  | createFromString i content => exact hkeep rfl
  | createFromRawBytes i input =>
    rw [Nodes.call, Counted]
    cases hread : IPLDNodeImpl.createFromRawBytes input with
    | error e => exact iff_of_true h fun _ hnode => by cases hnode
    | ok node =>
      refine (sized_modify fun j _ => h j).trans ((IPLDNodeImpl.sized_createFromRawBytes hread).trans ?_)
      exact ⟨fun hzero node' hnode => Except.ok.inj hnode ▸ hzero, fun hall => hall node rfl⟩

theorem run_step (s : Nodes) (calls : List Call) : Runs.run (step H) s calls = some (calls.foldl (call H) s) := by
  induction calls generalizing s with
  | nil => rfl
  | cons c calls ih => exact ih _

end Nodes

end IpfsLite.Ipld
