import Mathlib

/-! # Tree unfoldings of a graph

A graph is known through `fetch`, which returns the value of a node and its named edges, or fails. The tree unfolding
from a node follows every edge, so that a shared node comes once for every path to it; cut after `d` levels of
children, a node at level `d` has none. A node that cannot be fetched has no unfolding. -/
namespace IpfsLite.Unfolding
set_option autoImplicit false

variable {κ ν α ε : Type}

inductive Tree (ν α : Type) where
  | node (value : α) (children : List (ν × Tree ν α))

def Tree.value : Tree ν α → α
  | .node value _ => value

def Tree.children : Tree ν α → List (ν × Tree ν α)
  | .node _ children => children

/-- The levels that are left below a child, `none` for all of them. -/
def below (depth : Option ℕ) : Option ℕ := depth.map Nat.pred

variable (fetch : κ → Except ε (α × List (ν × κ)))

mutual
/-- The tree is what the graph unfolds to from the node, cut after `depth` levels. -/
def Unfolds : Tree ν α → Option ℕ → κ → Prop
  | .node value children, depth, k => ∃ edges, fetch k = .ok (value, edges) ∧
      (depth = some 0 ∧ children = [] ∨ depth ≠ some 0 ∧ UnfoldsAll children (below depth) edges)
def UnfoldsAll : List (ν × Tree ν α) → Option ℕ → List (ν × κ) → Prop
  | [], _, edges => edges = []
  | child :: children, depth, edges => ∃ edge rest, edges = edge :: rest ∧ child.1 = edge.1 ∧
      Unfolds child.2 depth edge.2 ∧ UnfoldsAll children depth rest
end

/-- The nodes up to level `depth`. -/
inductive Within : Option ℕ → κ → κ → Prop where
  | root (depth : Option ℕ) (k : κ) : Within depth k k
  | child {depth : Option ℕ} {k k' : κ} {value : α} {edges : List (ν × κ)} {edge : ν × κ}
      (hdepth : depth ≠ some 0) (hfetch : fetch k = .ok (value, edges)) (hedge : edge ∈ edges)
      (h : Within (below depth) edge.2 k') : Within depth k k'

/-- An edge leads from the second node to the first. -/
def Edge (child k : κ) : Prop := ∃ value edges, fetch k = .ok (value, edges) ∧ ∃ edge ∈ edges, edge.2 = child

variable {fetch}

theorem unfolds_node {value : α} {children : List (ν × Tree ν α)} {depth : Option ℕ} {k : κ} :
    Unfolds fetch (.node value children) depth k ↔ ∃ edges, fetch k = .ok (value, edges) ∧
      (depth = some 0 ∧ children = [] ∨ depth ≠ some 0 ∧ UnfoldsAll fetch children (below depth) edges) := by
  rw [Unfolds]

/-- Child by child. -/
theorem unfoldsAll_iff {children : List (ν × Tree ν α)} {depth : Option ℕ} {edges : List (ν × κ)} :
    UnfoldsAll fetch children depth edges ↔
      List.Forall₂ (fun child edge => child.1 = edge.1 ∧ Unfolds fetch child.2 depth edge.2) children edges := by
  induction children generalizing edges with
  | nil =>
    rw [UnfoldsAll, List.forall₂_nil_left_iff]
  | cons child children ih =>
    rw [UnfoldsAll, List.forall₂_cons_left_iff]
    constructor
    · rintro ⟨edge, rest, rfl, hname, hchild, hrest⟩
      exact ⟨edge, rest, ⟨hname, hchild⟩, ih.mp hrest, rfl⟩
    · rintro ⟨edge, rest, ⟨hname, hchild⟩, hrest, rfl⟩
      exact ⟨edge, rest, rfl, hname, hchild, ih.mpr hrest⟩

/-! ## At most one unfolding -/

mutual
theorem Unfolds.unique : ∀ {t t' : Tree ν α} {depth : Option ℕ} {k : κ},
    Unfolds fetch t depth k → Unfolds fetch t' depth k → t = t'
  | .node value children, .node value' children', depth, k, h, h' => by
    obtain ⟨edges, hfetch, hcases⟩ := unfolds_node.mp h
    obtain ⟨edges', hfetch', hcases'⟩ := unfolds_node.mp h'
    rw [hfetch, Except.ok.injEq, Prod.mk.injEq] at hfetch'
    obtain ⟨rfl, rfl⟩ := hfetch'
    obtain ⟨hzero, rfl⟩ | ⟨hne, hall⟩ := hcases
    · obtain ⟨-, rfl⟩ | ⟨hne, -⟩ := hcases'
      · rfl
      · exact absurd hzero hne
    · obtain ⟨hzero, -⟩ | ⟨-, hall'⟩ := hcases'
      · exact absurd hzero hne
      · rw [UnfoldsAll.unique hall hall']
theorem UnfoldsAll.unique : ∀ {ts ts' : List (ν × Tree ν α)} {depth : Option ℕ} {edges : List (ν × κ)},
    UnfoldsAll fetch ts depth edges → UnfoldsAll fetch ts' depth edges → ts = ts'
  | [], ts', depth, edges, h, h' => by
    rw [UnfoldsAll] at h
    subst h
    cases ts' with
    | nil => rfl
    | cons t' ts' =>
      rw [UnfoldsAll] at h'
      obtain ⟨_, _, hnil, -⟩ := h'
      cases hnil
  | t :: ts, ts', depth, edges, h, h' => by
    rw [UnfoldsAll] at h
    obtain ⟨edge, rest, rfl, hname, ht, hts⟩ := h
    cases ts' with
    | nil =>
      rw [UnfoldsAll] at h'
      cases h'
    | cons t' ts' =>
      rw [UnfoldsAll] at h'
      obtain ⟨edge', rest', heq, hname', ht', hts'⟩ := h'
      obtain ⟨rfl, rfl⟩ := List.cons.inj heq
      rw [UnfoldsAll.unique hts hts']
      exact congrArg (· :: ts') (Prod.ext (hname.trans hname'.symm) (Unfolds.unique ht ht'))
end

/-! ## When there is one -/

mutual
theorem Unfolds.found : ∀ {t : Tree ν α} {depth : Option ℕ} {k k' : κ}, Unfolds fetch t depth k →
    Within fetch depth k k' → ∃ node, fetch k' = .ok node
  | .node value children, depth, k, k', h, hwithin => by
    obtain ⟨edges, hfetch, hcases⟩ := unfolds_node.mp h
    cases hwithin with
    | root => exact ⟨_, hfetch⟩
    | child hdepth hfetch' hedge hbelow =>
      rw [hfetch, Except.ok.injEq, Prod.mk.injEq] at hfetch'
      obtain ⟨rfl, rfl⟩ := hfetch'
      obtain ⟨hzero, -⟩ | ⟨-, hall⟩ := hcases
      · exact absurd hzero hdepth
      · exact UnfoldsAll.found hall hedge hbelow
theorem UnfoldsAll.found : ∀ {ts : List (ν × Tree ν α)} {depth : Option ℕ} {edges : List (ν × κ)} {edge : ν × κ}
    {k' : κ}, UnfoldsAll fetch ts depth edges → edge ∈ edges → Within fetch depth edge.2 k' →
    ∃ node, fetch k' = .ok node
  | [], depth, edges, edge, k', h, hedge, hwithin => by
    rw [UnfoldsAll] at h
    rw [h] at hedge
    cases hedge
  | t :: ts, depth, edges, edge, k', h, hedge, hwithin => by
    rw [UnfoldsAll] at h
    obtain ⟨first, rest, rfl, -, ht, hts⟩ := h
    obtain rfl | hedge := List.mem_cons.mp hedge
    · exact Unfolds.found ht hwithin
    · exact UnfoldsAll.found hts hedge hwithin
end

theorem exists_unfoldsAll {depth : Option ℕ} {edges : List (ν × κ)}
    (h : ∀ edge ∈ edges, ∃ t, Unfolds fetch t depth edge.2) : ∃ ts, UnfoldsAll fetch ts depth edges := by
  induction edges with
  | nil => exact ⟨[], unfoldsAll_iff.mpr .nil⟩
  | cons edge edges ih =>
    obtain ⟨t, ht⟩ := h edge List.mem_cons_self
    obtain ⟨ts, hts⟩ := ih fun e he => h e (List.mem_cons_of_mem edge he)
    exact ⟨(edge.1, t) :: ts, unfoldsAll_iff.mpr (.cons ⟨rfl, ht⟩ (unfoldsAll_iff.mp hts))⟩

/-- **A node unfolds** exactly when every node up to the depth is found. -/
theorem exists_unfolds_iff (hacyclic : WellFounded (Edge fetch)) {depth : Option ℕ} {k : κ} :
    (∃ t, Unfolds fetch t depth k) ↔ ∀ k', Within fetch depth k k' → ∃ node, fetch k' = .ok node := by
  constructor
  · rintro ⟨t, ht⟩ k'
    exact ht.found
  induction k using hacyclic.induction generalizing depth with
  | _ k ih =>
    intro hfound
    obtain ⟨⟨value, edges⟩, hfetch⟩ := hfound k (.root depth k)
    by_cases hzero : depth = some 0
    · exact ⟨.node value [], unfolds_node.mpr ⟨edges, hfetch, .inl ⟨hzero, rfl⟩⟩⟩
    · have hedges : ∀ edge ∈ edges, ∃ t, Unfolds fetch t (below depth) edge.2 := fun edge hedge =>
        ih edge.2 ⟨value, edges, hfetch, edge, hedge, rfl⟩ fun k' hk' => hfound k' (.child hzero hfetch hedge hk')
      obtain ⟨ts, hts⟩ := exists_unfoldsAll hedges
      exact ⟨.node value ts, unfolds_node.mpr ⟨edges, hfetch, .inr ⟨hzero, hts⟩⟩⟩

end IpfsLite.Unfolding
