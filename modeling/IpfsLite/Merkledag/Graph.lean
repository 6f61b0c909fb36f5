import IpfsLite.Merkledag.Service

/-! # The graph behind a node

What `fetchGraph` and `fetchGraphOnDepth` return is the tree unfolding of the stored graph, cut after the depth. -/
namespace IpfsLite.Merkledag
set_option autoImplicit false

open Codec (StringKey)
open Fallible
open Filter (atTop Eventually eventually_atTop eventually_all_finite)
open Ipld
open Unfolding (Unfolds UnfoldsAll Within Edge below)

variable {ε : Type}

/-- A node as it stands in the graph: its content and its links. -/
def expand (nodeGetter : CID → Except ε IPLDNodeImpl) (cid : CID) : Except ε (Bytes × List (StringKey × CID)) :=
  (nodeGetter cid).map fun node => (node.content, node.getLinks.map fun link => (⟨link.name⟩, link.cid))

/-! ## Outcomes -/

namespace Fetch
variable {α β : Type}

@[simp] theorem outcome_pure (a : α) : (pure a : Fetch ε α).outcome = .ok a := rfl

@[simp] theorem outcome_stop (s : Stop ε) : (stop s : Fetch ε α).outcome = .error s := rfl

theorem outcome_bind (x : Fetch ε α) (f : α → Fetch ε β) :
    (x >>= f).outcome = x.outcome >>= fun a => (f a).outcome := by
  obtain ⟨requested, outcome⟩ := x
  cases outcome <;> rfl

theorem outcome_foldlM (f : β → α → Fetch ε β) (b : β) (as : List α) :
    (as.foldlM f b).outcome = as.foldlM (fun b a => (f b a).outcome) b := by
  induction as generalizing b with
  | nil => rfl
  | cons a as ih =>
    rw [List.foldlM_cons, List.foldlM_cons, outcome_bind]
    exact congrArg _ (funext ih)

theorem requested_bind {x : Fetch ε α} {f : α → Fetch ε β} {cid : CID} (h : cid ∈ (x >>= f).requested) :
    cid ∈ x.requested ∨ ∃ a, x.outcome = .ok a ∧ cid ∈ (f a).requested := by
  obtain ⟨requested, outcome⟩ := x
  cases outcome with
  | error s => exact .inl h
  | ok a => exact (List.mem_append.mp h).imp id fun h => ⟨a, rfl, h⟩

theorem requested_bind_ok {x : Fetch ε α} {f : α → Fetch ε β} {a : α} (h : x.outcome = .ok a) :
    (x >>= f).requested = x.requested ++ (f a).requested := by
  obtain ⟨requested, outcome⟩ := x
  subst h
  rfl

theorem requested_of_first {x : Fetch ε α} {f : α → Fetch ε β} {cid : CID} (h : cid ∈ x.requested) :
    cid ∈ (x >>= f).requested := by
  obtain ⟨requested, outcome⟩ := x
  cases outcome with
  | error s => exact h
  | ok a => exact List.mem_append_left _ h

/-- In a loop that goes through every turn does. -/
theorem foldlM_ok {f : β → α → Fetch ε β} {b b' : β} {as : List α} (h : (as.foldlM f b).outcome = .ok b') {a : α}
    (ha : a ∈ as) : ∃ b₁ b₂, (f b₁ a).outcome = .ok b₂ ∧
      ∀ cid ∈ (f b₁ a).requested, cid ∈ (as.foldlM f b).requested := by
  induction as generalizing b with
  | nil => cases ha
  | cons first as ih =>
    rw [List.foldlM_cons] at h ⊢
    rw [outcome_bind] at h
    obtain ⟨b₁, hfirst, hrest⟩ := bind_ok h
    rw [requested_bind_ok hfirst]
    obtain rfl | ha := List.mem_cons.mp ha
    · exact ⟨b, b₁, hfirst, fun cid hcid => List.mem_append_left _ hcid⟩
    · obtain ⟨b₂, b₃, hturn, hrequested⟩ := ih hrest ha
      exact ⟨b₂, b₃, hturn, fun cid hcid => List.mem_append_right _ (hrequested cid hcid)⟩

theorem requested_foldlM {f : β → α → Fetch ε β} {b : β} {as : List α} {cid : CID}
    (h : cid ∈ (as.foldlM f b).requested) : ∃ a ∈ as, ∃ b, cid ∈ (f b a).requested := by
  induction as generalizing b with
  | nil => cases h
  | cons a as ih =>
    rw [List.foldlM_cons] at h
    obtain h | ⟨b', -, h⟩ := requested_bind h
    · exact ⟨a, List.mem_cons_self, b, h⟩
    · obtain ⟨a', ha', b'', h⟩ := ih h
      exact ⟨a', List.mem_cons_of_mem a ha', b'', h⟩

end Fetch

/-! ## One node -/

/-- A child whose name comes last is put at the end. -/
theorem insertSubLeaf_last {value : Bytes} {children : List (StringKey × Leaf)} {name : Bytes} (child : Leaf)
    (h : ∀ e ∈ children, e.1 < ⟨name⟩) :
    Leaf.insertSubLeaf (.node value children) name child = .ok (.node value (children ++ [(⟨name⟩, child)])) := by
  have hnew : (children.any fun e => e.1 = ⟨name⟩) = false :=
    List.any_eq_false.mpr fun e he => by simpa using (h e he).ne
  have hbefore : children.filter (fun e => e.1 < ⟨name⟩) = children :=
    List.filter_eq_self.mpr fun e he => decide_eq_true (h e he)
  have hafter : children.filter (fun e => ⟨name⟩ < e.1) = [] :=
    List.filter_eq_nil_iff.mpr fun e he => by simpa using (h e he).le
  rw [Leaf.insertSubLeaf, Unfolding.Tree.children, hnew, if_neg Bool.false_ne_true, hbefore, hafter]
  rfl

/-- What the child behind a link becomes. -/
def childOutcome (nodeGetter : CID → Except ε IPLDNodeImpl) (build : Leaf → List IPLDLink → Fetch ε Leaf)
    (cid : CID) : Except (Stop ε) Leaf :=
  match nodeGetter cid with
  | .error _ => .error (.error (.service .unresolvedLink))
  | .ok node => (build (.node node.content []) node.getLinks).outcome

/-- The entry that a link adds. -/
def entryOutcome (nodeGetter : CID → Except ε IPLDNodeImpl) (build : Leaf → List IPLDLink → Fetch ε Leaf)
    (link : IPLDLink) : Except (Stop ε) (StringKey × Leaf) :=
  (childOutcome nodeGetter build link.cid).map fun child => (⟨link.name⟩, child)

/-- Up to the child, a link does what `childOutcome` says. -/
theorem outcome_buildLink (nodeGetter : CID → Except ε IPLDNodeImpl) (build : Leaf → List IPLDLink → Fetch ε Leaf)
    {value : Bytes} {children : List (StringKey × Leaf)} {link : IPLDLink}
    (hbelow : ∀ e ∈ children, e.1 < ⟨link.name⟩) :
    (buildLink nodeGetter build (.node value children) link).outcome =
      (entryOutcome nodeGetter build link).map fun entry => .node value (children ++ [entry]) := by
  rw [buildLink, entryOutcome, childOutcome, Fetch.outcome_bind]
  cases hnode : nodeGetter link.cid with
  | error e =>
    simp only [request, hnode]
    rfl
  | ok node =>
    simp only [request, hnode]
    change (build (.node node.content []) node.getLinks >>= _).outcome = _
    rw [Fetch.outcome_bind]
    cases (build (.node node.content []) node.getLinks).outcome with
    | error s => rfl
    | ok child =>
      simp only [bind, Except.bind, insertSubLeaf_last child hbelow]
      rfl

/-- With the names in order no child is a duplicate, and the children come in the order of the links. -/
theorem outcome_buildLinks (nodeGetter : CID → Except ε IPLDNodeImpl) (build : Leaf → List IPLDLink → Fetch ε Leaf)
    {value : Bytes} {children : List (StringKey × Leaf)} {links : List IPLDLink} (hnamed : Named links)
    (hbelow : ∀ e ∈ children, ∀ link ∈ links, e.1 < ⟨link.name⟩) :
    (links.foldlM (buildLink nodeGetter build) (.node value children)).outcome =
      (links.mapM (entryOutcome nodeGetter build)).map fun entries => .node value (children ++ entries) := by
  induction links generalizing children with
  | nil => simp [Except.map, pure, Except.pure]
  | cons link links ih =>
    obtain ⟨hfirst, hrest⟩ := List.pairwise_cons.mp hnamed
    rw [List.foldlM_cons, Fetch.outcome_bind, List.mapM_cons,
      outcome_buildLink nodeGetter build fun e he => hbelow e he link List.mem_cons_self]
    cases hentry : entryOutcome nodeGetter build link with
    | error s => rfl
    | ok entry =>
      have hname : entry.1 = ⟨link.name⟩ := by
        rw [entryOutcome] at hentry
        cases hchild : childOutcome nodeGetter build link.cid with
        | error s =>
          rw [hchild] at hentry
          cases hentry
        | ok child =>
          rw [hchild] at hentry
          rw [← ok_inj hentry]
      have hbelow' : ∀ e ∈ children ++ [entry], ∀ link' ∈ links, e.1 < ⟨link'.name⟩ := by
        intro e he link' hlink'
        obtain he | he := List.mem_append.mp he
        · exact hbelow e he link' (List.mem_cons_of_mem link hlink')
        · rw [List.mem_singleton.mp he, hname]
          exact hfirst link' hlink'
      refine (ih hrest hbelow').trans ?_
      cases hentries : links.mapM (entryOutcome nodeGetter build) with
      | error s => rfl
      | ok entries => simp [Except.map, bind, Except.bind, pure, Except.pure]

/-! ## The depth that is left -/

def remaining (maxDepth : Option ℕ) (currentDepth : ℕ) : Option ℕ := maxDepth.map fun d => d - currentDepth

/-- The recursion has not gone deeper than it should. -/
def Inside (maxDepth : Option ℕ) (currentDepth : ℕ) : Prop := ∀ d ∈ maxDepth, currentDepth ≤ d

section depth
variable {maxDepth : Option ℕ} {currentDepth : ℕ}

theorem remaining_eq_zero (h : Inside maxDepth currentDepth) :
    remaining maxDepth currentDepth = some 0 ↔ maxDepth = some currentDepth := by
  cases maxDepth with
  | none => simp [remaining]
  | some d =>
    have hle : currentDepth ≤ d := h d rfl
    simp only [remaining, Option.map_some, Option.some.injEq]
    omega

theorem below_remaining : below (remaining maxDepth currentDepth) = remaining maxDepth (currentDepth + 1) := by
  cases maxDepth with
  | none => rfl
  | some d => exact congrArg some (Nat.sub_succ d currentDepth).symm

theorem Inside.succ (h : Inside maxDepth currentDepth) (hne : maxDepth ≠ some currentDepth) :
    Inside maxDepth (currentDepth + 1) := by
  intro d hd
  have hle := h d hd
  have hne' : currentDepth ≠ d := fun heq => hne (heq ▸ hd)
  omega

end depth

/-! ## One level of the recursion -/

section
variable {nodeGetter : CID → Except ε IPLDNodeImpl} {fuel : ℕ} {maxDepth : Option ℕ} {currentDepth : ℕ} {cid : CID}

/-- What the node behind a link becomes at a depth. -/
def treeOutcome (nodeGetter : CID → Except ε IPLDNodeImpl) (fuel : ℕ) (maxDepth : Option ℕ) (currentDepth : ℕ)
    (cid : CID) : Except (Stop ε) Leaf :=
  childOutcome nodeGetter (fun leaf links => buildGraph nodeGetter fuel leaf links maxDepth currentDepth) cid

theorem expand_ok {node : IPLDNodeImpl} (h : nodeGetter cid = .ok node) :
    expand nodeGetter cid = .ok (node.content, node.getLinks.map fun link => (⟨link.name⟩, link.cid)) := by
  rw [expand, h]
  rfl

theorem expand_ok_inv {value : Bytes} {edges : List (StringKey × CID)}
    (h : expand nodeGetter cid = .ok (value, edges)) : ∃ node, nodeGetter cid = .ok node ∧ value = node.content ∧
      edges = node.getLinks.map fun link => (⟨link.name⟩, link.cid) := by
  rw [expand] at h
  cases hnode : nodeGetter cid with
  | error e =>
    rw [hnode] at h
    cases h
  | ok node =>
    rw [hnode] at h
    obtain ⟨rfl, rfl⟩ := Prod.mk.inj (ok_inj h)
    exact ⟨node, rfl, rfl, rfl⟩

theorem treeOutcome_missing {e : ε} (h : nodeGetter cid = .error e) :
    treeOutcome nodeGetter fuel maxDepth currentDepth cid = .error (.error (.service .unresolvedLink)) := by
  rw [treeOutcome, childOutcome, h]

theorem treeOutcome_zero {node : IPLDNodeImpl} (h : nodeGetter cid = .ok node) :
    treeOutcome nodeGetter 0 maxDepth currentDepth cid = .error .running := by
  rw [treeOutcome, childOutcome, h]
  rfl

theorem treeOutcome_succ {node : IPLDNodeImpl} (h : nodeGetter cid = .ok node) (hnamed : Named node.getLinks) :
    treeOutcome nodeGetter (fuel + 1) maxDepth currentDepth cid =
      if maxDepth = some currentDepth then .ok (.node node.content [])
      else (node.getLinks.mapM (entryOutcome nodeGetter fun leaf links =>
        buildGraph nodeGetter fuel leaf links maxDepth (currentDepth + 1))).map (.node node.content) := by
  rw [treeOutcome, childOutcome, h]
  simp only [buildGraph]
  by_cases hdepth : maxDepth = some currentDepth
  · rw [if_pos hdepth, if_pos hdepth]
    rfl
  · rw [if_neg hdepth, if_neg hdepth]
    exact outcome_buildLinks nodeGetter _ hnamed fun e he => (List.not_mem_nil he).elim

theorem entryOutcome_ok {link : IPLDLink} {entry : StringKey × Leaf} :
    entryOutcome nodeGetter (fun leaf links => buildGraph nodeGetter fuel leaf links maxDepth currentDepth) link =
      .ok entry ↔
    entry.1 = ⟨link.name⟩ ∧ treeOutcome nodeGetter fuel maxDepth currentDepth link.cid = .ok entry.2 := by
  rw [entryOutcome, treeOutcome]
  cases childOutcome nodeGetter (fun leaf links => buildGraph nodeGetter fuel leaf links maxDepth currentDepth)
    link.cid with
  | error s => simp [Except.map]
  | ok child =>
    obtain ⟨name, leaf⟩ := entry
    simp [Except.map, eq_comm]

theorem entryOutcome_error {link : IPLDLink} {s : Stop ε} :
    entryOutcome nodeGetter (fun leaf links => buildGraph nodeGetter fuel leaf links maxDepth currentDepth) link =
      .error s ↔ treeOutcome nodeGetter fuel maxDepth currentDepth link.cid = .error s := by
  rw [entryOutcome, treeOutcome]
  cases childOutcome nodeGetter (fun leaf links => buildGraph nodeGetter fuel leaf links maxDepth currentDepth)
    link.cid <;> simp [Except.map]

end

/-! ## What is returned -/

section
variable {nodeGetter : CID → Except ε IPLDNodeImpl}
  (hnamed : ∀ cid node, nodeGetter cid = .ok node → Named node.getLinks)
include hnamed

/-- A tree that is returned is the unfolding. -/
theorem unfolds_of_treeOutcome {fuel : ℕ} {maxDepth : Option ℕ} {currentDepth : ℕ} {cid : CID} {leaf : Leaf}
    (hinside : Inside maxDepth currentDepth)
    (h : treeOutcome nodeGetter fuel maxDepth currentDepth cid = .ok leaf) :
    Unfolds (expand nodeGetter) leaf (remaining maxDepth currentDepth) cid := by
  induction fuel generalizing currentDepth cid leaf with
  | zero =>
    cases hnode : nodeGetter cid with
    | error e =>
      rw [treeOutcome_missing hnode] at h
      cases h
    | ok node =>
      rw [treeOutcome_zero hnode] at h
      cases h
  | succ fuel ih =>
    cases hnode : nodeGetter cid with
    | error e =>
      rw [treeOutcome_missing hnode] at h
      cases h
    | ok node =>
      rw [treeOutcome_succ hnode (hnamed cid node hnode)] at h
      by_cases hdepth : maxDepth = some currentDepth
      · rw [if_pos hdepth] at h
        rw [← ok_inj h]
        exact Unfolding.unfolds_node.mpr
          ⟨_, expand_ok hnode, .inl ⟨(remaining_eq_zero hinside).mpr hdepth, rfl⟩⟩
      · rw [if_neg hdepth] at h
        obtain ⟨entries, hentries, h⟩ := map_ok h
        rw [← h]
        refine Unfolding.unfolds_node.mpr
          ⟨_, expand_ok hnode, .inr ⟨fun hzero => hdepth ((remaining_eq_zero hinside).mp hzero), ?_⟩⟩
        rw [Unfolding.unfoldsAll_iff, below_remaining, List.forall₂_map_right_iff]
        refine (mapM_ok hentries).flip.imp fun entry link hentry => ?_
        obtain ⟨hname, htree⟩ := entryOutcome_ok.mp hentry
        exact ⟨hname, ih (hinside.succ hdepth) htree⟩

mutual
/-- With enough fuel the unfolding is returned. -/
theorem treeOutcome_of_unfolds : ∀ {leaf : Leaf} {depth : Option ℕ} {cid : CID},
    Unfolds (expand nodeGetter) leaf depth cid → ∀ {maxDepth : Option ℕ} {currentDepth : ℕ},
    Inside maxDepth currentDepth → remaining maxDepth currentDepth = depth →
    ∀ᶠ fuel in atTop, treeOutcome nodeGetter fuel maxDepth currentDepth cid = .ok leaf
  | .node value children, depth, cid, h, maxDepth, currentDepth, hinside, hdepth => by
    obtain ⟨edges, hfetch, hcases⟩ := Unfolding.unfolds_node.mp h
    obtain ⟨node, hnode, rfl, rfl⟩ := expand_ok_inv hfetch
    rw [← hdepth, remaining_eq_zero hinside, Ne, remaining_eq_zero hinside] at hcases
    obtain ⟨hzero, rfl⟩ | ⟨hne, hall⟩ := hcases
    · refine eventually_atTop.mpr ⟨1, fun fuel hfuel => ?_⟩
      obtain ⟨fuel', rfl⟩ : ∃ fuel', fuel = fuel' + 1 := ⟨fuel - 1, by omega⟩
      rw [treeOutcome_succ hnode (hnamed cid node hnode), if_pos hzero]
    · rw [below_remaining] at hall
      obtain ⟨fuel₀, hentries⟩ := eventually_atTop.mp (entries_of_unfoldsAll hall (hinside.succ hne) rfl)
      refine eventually_atTop.mpr ⟨fuel₀ + 1, fun fuel hfuel => ?_⟩
      obtain ⟨fuel', rfl⟩ : ∃ fuel', fuel = fuel' + 1 := ⟨fuel - 1, by omega⟩
      rw [treeOutcome_succ hnode (hnamed cid node hnode), if_neg hne,
        mapM_of_forall₂ (hentries fuel' (by omega))]
      rfl
theorem entries_of_unfoldsAll : ∀ {children : List (StringKey × Leaf)} {depth : Option ℕ} {links : List IPLDLink},
    UnfoldsAll (expand nodeGetter) children depth (links.map fun link => (⟨link.name⟩, link.cid)) →
    ∀ {maxDepth : Option ℕ} {currentDepth : ℕ}, Inside maxDepth currentDepth → remaining maxDepth currentDepth = depth →
    ∀ᶠ fuel in atTop, List.Forall₂ (fun link entry => entryOutcome nodeGetter (fun leaf links =>
      buildGraph nodeGetter fuel leaf links maxDepth currentDepth) link = .ok entry) links children
  | [], depth, links, h, maxDepth, currentDepth, hinside, hdepth => by
    rw [UnfoldsAll, List.map_eq_nil_iff] at h
    rw [h]
    exact Eventually.of_forall fun _ => .nil
  | child :: children, depth, links, h, maxDepth, currentDepth, hinside, hdepth => by
    rw [UnfoldsAll] at h
    obtain ⟨edge, rest, hlinks, hname, hchild, hrest⟩ := h
    obtain ⟨link, links', rfl, rfl, rfl⟩ := List.map_eq_cons_iff.mp hlinks
    filter_upwards [treeOutcome_of_unfolds hchild hinside hdepth, entries_of_unfoldsAll hrest hinside hdepth]
      with fuel hfirst hothers
    exact .cons (entryOutcome_ok.mpr ⟨hname, hfirst⟩) hothers
end

/-- A failure is a broken link. -/
theorem broken_of_treeOutcome {fuel : ℕ} {maxDepth : Option ℕ} {currentDepth : ℕ} {cid : CID} {e : FetchError ε}
    (hinside : Inside maxDepth currentDepth)
    (h : treeOutcome nodeGetter fuel maxDepth currentDepth cid = .error (.error e)) :
    e = .service .unresolvedLink ∧ ∃ missing e',
      Within (expand nodeGetter) (remaining maxDepth currentDepth) cid missing ∧ nodeGetter missing = .error e' := by
  induction fuel generalizing currentDepth cid with
  | zero =>
    cases hnode : nodeGetter cid with
    | error e' =>
      rw [treeOutcome_missing hnode] at h
      exact ⟨(Stop.error.inj (Except.error.inj h)).symm, cid, e', .root _ cid, hnode⟩
    | ok node =>
      rw [treeOutcome_zero hnode] at h
      cases h
  | succ fuel ih =>
    cases hnode : nodeGetter cid with
    | error e' =>
      rw [treeOutcome_missing hnode] at h
      exact ⟨(Stop.error.inj (Except.error.inj h)).symm, cid, e', .root _ cid, hnode⟩
    | ok node =>
      rw [treeOutcome_succ hnode (hnamed cid node hnode)] at h
      by_cases hdepth : maxDepth = some currentDepth
      · rw [if_pos hdepth] at h
        cases h
      · rw [if_neg hdepth] at h
        obtain ⟨link, hlink, hentry⟩ := mapM_error (map_error h)
        obtain ⟨he, missing, e', hwithin, hmissing⟩ := ih (hinside.succ hdepth) (entryOutcome_error.mp hentry)
        refine ⟨he, missing, e', ?_, hmissing⟩
        refine .child (fun hzero => hdepth ((remaining_eq_zero hinside).mp hzero)) (expand_ok hnode)
          (List.mem_map_of_mem hlink) ?_
        rwa [below_remaining]

/-- The fuel suffices if it does for the children. -/
theorem stops_succ {fuel : ℕ} {maxDepth : Option ℕ} {currentDepth : ℕ} {cid : CID}
    (hchildren : ∀ node, nodeGetter cid = .ok node → maxDepth ≠ some currentDepth → ∀ link ∈ node.getLinks,
      treeOutcome nodeGetter fuel maxDepth (currentDepth + 1) link.cid ≠ .error .running) :
    treeOutcome nodeGetter (fuel + 1) maxDepth currentDepth cid ≠ .error .running := by
  cases hnode : nodeGetter cid with
  | error e =>
    rw [treeOutcome_missing hnode]
    rintro ⟨⟩
  | ok node =>
    rw [treeOutcome_succ hnode (hnamed cid node hnode)]
    by_cases hdepth : maxDepth = some currentDepth
    · rw [if_pos hdepth]
      rintro ⟨⟩
    · rw [if_neg hdepth]
      intro hrunning
      obtain ⟨link, hlink, hentry⟩ := mapM_error (map_error hrunning)
      exact hchildren node hnode hdepth link hlink (entryOutcome_error.mp hentry)

theorem stops_at_depth {fuel d currentDepth : ℕ} {cid : CID} (hle : currentDepth ≤ d) (hfuel : d - currentDepth < fuel) :
    treeOutcome nodeGetter fuel (some d) currentDepth cid ≠ .error .running := by
  induction fuel generalizing currentDepth cid with
  | zero => omega
  | succ fuel ih =>
    refine stops_succ hnamed fun node _ hdepth link _ => ?_
    have hne : d ≠ currentDepth := fun heq => hdepth (congrArg some heq)
    exact ih (by omega) (by omega)

/-- The recursion ends at the depth, or where the graph does. -/
theorem eventually_stops {maxDepth : Option ℕ} {currentDepth : ℕ} {cid : CID} (hinside : Inside maxDepth currentDepth)
    (hfinite : maxDepth ≠ none ∨ WellFounded (Edge (expand nodeGetter))) :
    ∀ᶠ fuel in atTop, treeOutcome nodeGetter fuel maxDepth currentDepth cid ≠ .error .running := by
  obtain hdepth | hacyclic := hfinite
  · obtain ⟨d, rfl⟩ := Option.ne_none_iff_exists'.mp hdepth
    refine eventually_atTop.mpr ⟨d - currentDepth + 1, fun fuel hfuel => ?_⟩
    exact stops_at_depth hnamed (hinside d rfl) (by omega)
  · clear hinside
    induction cid using hacyclic.induction generalizing currentDepth with
    | _ cid ih =>
      -- a node has finitely many links, so some fuel is enough for all of them
      have hall : ∀ᶠ fuel in atTop, ∀ node, nodeGetter cid = .ok node → ∀ link ∈ node.getLinks,
          treeOutcome nodeGetter fuel maxDepth (currentDepth + 1) link.cid ≠ .error .running := by
        cases hnode : nodeGetter cid with
        | error e => exact Eventually.of_forall fun _ _ hnode' => by cases hnode'
        | ok node =>
          have hlinks : ∀ᶠ fuel in atTop, ∀ link ∈ node.getLinks,
              treeOutcome nodeGetter fuel maxDepth (currentDepth + 1) link.cid ≠ .error .running := by
            refine (eventually_all_finite (List.finite_toSet node.getLinks)).mpr fun link hlink => ?_
            exact ih link.cid ⟨_, _, expand_ok hnode, _, List.mem_map_of_mem hlink, rfl⟩
          filter_upwards [hlinks] with fuel hfuel node' hnode'
          rw [← ok_inj hnode']
          exact hfuel
      obtain ⟨fuel₀, hfuel₀⟩ := eventually_atTop.mp hall
      refine eventually_atTop.mpr ⟨fuel₀ + 1, fun fuel hfuel => ?_⟩
      obtain ⟨fuel', rfl⟩ : ∃ fuel', fuel = fuel' + 1 := ⟨fuel - 1, by omega⟩
      exact stops_succ hnamed fun node hnode _ => hfuel₀ fuel' (by omega) node hnode

end

/-! ## What is requested -/

section
variable {nodeGetter : CID → Except ε IPLDNodeImpl}

theorem requested_buildLink {build : Leaf → List IPLDLink → Fetch ε Leaf} {root : Leaf} {link : IPLDLink} {c : CID} :
    c ∈ (buildLink nodeGetter build root link).requested ↔ c = link.cid ∨
      ∃ node, nodeGetter link.cid = .ok node ∧ c ∈ (build (.node node.content []) node.getLinks).requested := by
  rw [buildLink, Fetch.requested_bind_ok rfl, List.mem_append, request]
  refine or_congr List.mem_singleton ?_
  cases hnode : nodeGetter link.cid with
  | error e =>
    refine iff_of_false List.not_mem_nil ?_
    rintro ⟨node, hfound, -⟩
    cases hfound
  | ok node =>
    constructor
    · intro h
      refine ⟨node, rfl, ?_⟩
      obtain h | ⟨child, -, h⟩ := Fetch.requested_bind h
      · exact h
      · cases hinsert : root.insertSubLeaf link.name child with
        | error e =>
          rw [hinsert] at h
          cases h
        | ok root' =>
          rw [hinsert] at h
          cases h
    · rintro ⟨node', hfound, h⟩
      rw [← ok_inj hfound] at h
      exact Fetch.requested_of_first h

/-- A link that was built was found, and so were those below it. -/
theorem buildLink_ok {build : Leaf → List IPLDLink → Fetch ε Leaf} {root root' : Leaf} {link : IPLDLink}
    (h : (buildLink nodeGetter build root link).outcome = .ok root') :
    ∃ node child, nodeGetter link.cid = .ok node ∧ (build (.node node.content []) node.getLinks).outcome = .ok child := by
  rw [buildLink, Fetch.outcome_bind] at h
  cases hnode : nodeGetter link.cid with
  | error e =>
    simp only [request, hnode] at h
    cases h
  | ok node =>
    simp only [request, hnode] at h
    obtain ⟨child, hchild, -⟩ := bind_ok ((Fetch.outcome_bind _ _).symm.trans h)
    exact ⟨node, child, rfl, hchild⟩

theorem within_of_requested {fuel : ℕ} {root : Leaf} {links : List IPLDLink} {maxDepth : Option ℕ} {currentDepth : ℕ}
    {c : CID} (hinside : Inside maxDepth currentDepth)
    (h : c ∈ (buildGraph nodeGetter fuel root links maxDepth currentDepth).requested) :
    maxDepth ≠ some currentDepth ∧
      ∃ link ∈ links, Within (expand nodeGetter) (remaining maxDepth (currentDepth + 1)) link.cid c := by
  induction fuel generalizing root links currentDepth with
  | zero => cases h
  | succ fuel ih =>
    rw [buildGraph] at h
    by_cases hdepth : maxDepth = some currentDepth
    · rw [if_pos hdepth] at h
      cases h
    · rw [if_neg hdepth] at h
      obtain ⟨link, hlink, root', h⟩ := Fetch.requested_foldlM h
      refine ⟨hdepth, link, hlink, ?_⟩
      obtain rfl | ⟨node, hnode, h⟩ := requested_buildLink.mp h
      · exact .root _ _
      · have hinside' := hinside.succ hdepth
        obtain ⟨hdepth', link', hlink', hwithin⟩ := ih hinside' h
        rw [← below_remaining] at hwithin
        exact .child (fun hzero => hdepth' ((remaining_eq_zero hinside').mp hzero)) (expand_ok hnode)
          (List.mem_map_of_mem hlink') hwithin

theorem requested_of_within {fuel : ℕ} {root root' : Leaf} {links : List IPLDLink} {maxDepth : Option ℕ}
    {currentDepth : ℕ} {c : CID} (hinside : Inside maxDepth currentDepth) (hdepth : maxDepth ≠ some currentDepth)
    (hok : (buildGraph nodeGetter fuel root links maxDepth currentDepth).outcome = .ok root') {link : IPLDLink}
    (hlink : link ∈ links)
    (hwithin : Within (expand nodeGetter) (remaining maxDepth (currentDepth + 1)) link.cid c) :
    c ∈ (buildGraph nodeGetter fuel root links maxDepth currentDepth).requested := by
  induction fuel generalizing root root' links currentDepth link with
  | zero => cases hok
  | succ fuel ih =>
    rw [buildGraph, if_neg hdepth] at hok ⊢
    obtain ⟨before, after, hbuilt, hrequested⟩ := Fetch.foldlM_ok hok hlink
    refine hrequested c (requested_buildLink.mpr ?_)
    cases hwithin with
    | root => exact .inl rfl
    | child hne hfetch hedge hbelow =>
      have hinside' := hinside.succ hdepth
      obtain ⟨node, child, hnode, hchild⟩ := buildLink_ok hbuilt
      rw [expand_ok hnode] at hfetch
      obtain ⟨rfl, rfl⟩ := Prod.mk.inj (ok_inj hfetch)
      obtain ⟨link', hlink', rfl⟩ := List.mem_map.mp hedge
      rw [below_remaining] at hbelow
      exact .inr ⟨node, hnode, ih hinside' (fun hzero => hne ((remaining_eq_zero hinside').mpr hzero)) hchild
        hlink' hbelow⟩

end

/-! ## The service -/

section
variable {nodeGetter : CID → Except ε IPLDNodeImpl} {cid : CID} {fuel : ℕ} {depth : Option ℕ}

theorem fetchGraphOnDepth_missing {e : ε} (h : nodeGetter cid = .error e) :
    fetchGraphOnDepth fuel nodeGetter cid depth = ⟨[cid], .error (.error (.getter e))⟩ := by
  simp only [fetchGraphOnDepth, request, h]
  rfl

theorem fetchGraphOnDepth_found {node : IPLDNodeImpl} (h : nodeGetter cid = .ok node) :
    (fetchGraphOnDepth fuel nodeGetter cid depth).outcome = treeOutcome nodeGetter fuel depth 0 cid ∧
    (fetchGraphOnDepth fuel nodeGetter cid depth).requested =
      cid :: (buildGraph nodeGetter fuel (.node node.content []) node.getLinks depth 0).requested := by
  rw [treeOutcome, childOutcome]
  simp only [fetchGraphOnDepth, request, h]
  exact ⟨rfl, rfl⟩

theorem inside_zero : Inside depth 0 := fun d _ => Nat.zero_le d

theorem remaining_zero (depth : Option ℕ) : remaining depth 0 = depth := by cases depth <;> rfl

theorem returned_iff (hnamed : ∀ cid node, nodeGetter cid = .ok node → Named node.getLinks) (leaf : Leaf) :
    (∃ fuel, (fetchGraphOnDepth fuel nodeGetter cid depth).outcome = .ok leaf) ↔
      Unfolds (expand nodeGetter) leaf depth cid := by
  cases hnode : nodeGetter cid with
  | error e =>
    constructor
    · rintro ⟨fuel, h⟩
      rw [fetchGraphOnDepth_missing hnode] at h
      cases h
    · intro h
      obtain ⟨value, children⟩ := leaf
      obtain ⟨edges, hfetch, -⟩ := Unfolding.unfolds_node.mp h
      obtain ⟨node, hfound, -⟩ := expand_ok_inv hfetch
      rw [hnode] at hfound
      cases hfound
  | ok node =>
    constructor
    · rintro ⟨fuel, h⟩
      rw [(fetchGraphOnDepth_found hnode).1] at h
      have htree := unfolds_of_treeOutcome hnamed inside_zero h
      rwa [remaining_zero] at htree
    · intro h
      obtain ⟨fuel, hfuel⟩ := (treeOutcome_of_unfolds hnamed h inside_zero (remaining_zero depth)).exists
      exact ⟨fuel, (fetchGraphOnDepth_found hnode).1.trans hfuel⟩

theorem within_of_fetched {c : CID} (h : c ∈ (fetchGraphOnDepth fuel nodeGetter cid depth).requested) :
    Within (expand nodeGetter) depth cid c := by
  cases hnode : nodeGetter cid with
  | error e =>
    rw [fetchGraphOnDepth_missing hnode] at h
    rw [List.mem_singleton.mp h]
    exact .root depth cid
  | ok node =>
    rw [(fetchGraphOnDepth_found hnode).2] at h
    obtain rfl | h := List.mem_cons.mp h
    · exact .root depth _
    · obtain ⟨hdepth, link, hlink, hwithin⟩ := within_of_requested inside_zero h
      rw [← below_remaining, remaining_zero] at hwithin
      refine .child (fun hzero => hdepth ?_) (expand_ok hnode) (List.mem_map_of_mem hlink) hwithin
      rwa [← remaining_eq_zero inside_zero, remaining_zero]

theorem fetched_of_within {leaf : Leaf} {c : CID} (h : (fetchGraphOnDepth fuel nodeGetter cid depth).outcome = .ok leaf)
    (hwithin : Within (expand nodeGetter) depth cid c) :
    c ∈ (fetchGraphOnDepth fuel nodeGetter cid depth).requested := by
  cases hnode : nodeGetter cid with
  | error e =>
    rw [fetchGraphOnDepth_missing hnode] at h
    cases h
  | ok node =>
    rw [(fetchGraphOnDepth_found hnode).1, treeOutcome, childOutcome, hnode] at h
    rw [(fetchGraphOnDepth_found hnode).2]
    cases hwithin with
    | root => exact List.mem_cons_self
    | child hne hfetch hedge hbelow =>
      rw [expand_ok hnode] at hfetch
      obtain ⟨rfl, rfl⟩ := Prod.mk.inj (ok_inj hfetch)
      obtain ⟨link, hlink, rfl⟩ := List.mem_map.mp hedge
      rw [← remaining_zero depth, Ne, remaining_eq_zero inside_zero] at hne
      rw [← remaining_zero depth, below_remaining] at hbelow
      exact List.mem_cons_of_mem _ (requested_of_within inside_zero hne h hlink hbelow)

/-- **The graph is fetched**: with enough fuel exactly the tree unfolding of the node is returned, and exactly the
nodes up to the depth were requested for it; in no run is any other. -/
theorem fetchGraphOnDepth_unfolds (get : CID → Except ε Bytes) (cid : CID) (depth : Option ℕ) :
    let graph := expand (getNode get)
    let fetch fuel := fetchGraphOnDepth fuel (getNode get) cid depth
    (∀ leaf, (∃ fuel, (fetch fuel).outcome = .ok leaf) ↔ Unfolds graph leaf depth cid) ∧
    (∀ fuel leaf c, (fetch fuel).outcome = .ok leaf → (c ∈ (fetch fuel).requested ↔ Within graph depth cid c)) ∧
    ∀ fuel c, c ∈ (fetch fuel).requested → Within graph depth cid c := by
  intro graph fetch
  exact ⟨returned_iff fun _ _ => named_of_getNode,
    fun fuel leaf c h => ⟨within_of_fetched, fetched_of_within h⟩, fun fuel c => within_of_fetched⟩

/-- **A fetch fails** with the error for the root, or because a link up to the depth is broken; it comes to an end
when there is a depth or the graph has no cycle. -/
theorem fetchGraphOnDepth_fails (get : CID → Except ε Bytes) (cid : CID) (depth : Option ℕ) :
    let graph := expand (getNode get)
    let fetch fuel := fetchGraphOnDepth fuel (getNode get) cid depth
    (∀ fuel e, (fetch fuel).outcome = .error (.error e) →
      (∃ e', e = .getter e' ∧ getNode get cid = .error e') ∨
      e = .service .unresolvedLink ∧ (∃ root, getNode get cid = .ok root) ∧
        ∃ missing e', Within graph depth cid missing ∧ getNode get missing = .error e') ∧
    (depth ≠ none ∨ WellFounded (Edge graph) → ∃ fuel₀, ∀ fuel ≥ fuel₀, (fetch fuel).outcome ≠ .error .running) := by
  intro graph fetch
  have hnamed : ∀ cid node, getNode get cid = .ok node → Named node.getLinks := fun _ _ => named_of_getNode
  cases hroot : getNode get cid with
  | error e' =>
    refine ⟨fun fuel e h => ?_, fun _ => ⟨0, fun fuel _ h => ?_⟩⟩
    · simp only [fetch, fetchGraphOnDepth_missing hroot] at h
      exact .inl ⟨e', (Stop.error.inj (Except.error.inj h)).symm, rfl⟩
    · simp only [fetch, fetchGraphOnDepth_missing hroot] at h
      cases h
  | ok root =>
    have hfetch : ∀ fuel, (fetch fuel).outcome = treeOutcome (getNode get) fuel depth 0 cid :=
      fun fuel => (fetchGraphOnDepth_found hroot).1
    refine ⟨fun fuel e h => ?_, fun hfinite => ?_⟩
    · rw [hfetch] at h
      obtain ⟨he, missing, e', hwithin, hmissing⟩ := broken_of_treeOutcome hnamed inside_zero h
      rw [remaining_zero] at hwithin
      exact .inr ⟨he, ⟨root, rfl⟩, missing, e', hwithin, hmissing⟩
    · have hstops : ∀ᶠ fuel in atTop, treeOutcome (getNode get) fuel depth 0 cid ≠ .error .running :=
        eventually_stops hnamed inside_zero hfinite
      obtain ⟨fuel₀, hfuel₀⟩ := eventually_atTop.mp hstops
      exact ⟨fuel₀, fun fuel hfuel => hfetch fuel ▸ hfuel₀ fuel hfuel⟩

end

end IpfsLite.Merkledag
