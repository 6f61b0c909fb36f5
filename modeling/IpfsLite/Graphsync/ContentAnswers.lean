import IpfsLite.Foundations.EventLog
import IpfsLite.Graphsync.ReceivedMessages
import IpfsLite.Graphsync.Responder
import IpfsLite.Merkledag.NodeStore

/-! # Answers from the MerkleDAG

What the task of `GraphsyncImpl::onRemoteRequest` finds with the MerkleDAG service of its instance, and what therefore
reaches the endpoints, however the tasks are interleaved. -/
namespace IpfsLite.Graphsync.Responder
set_option autoImplicit false

open EventLog
open Fallible
open Ipld Merkledag

variable {ε Q : Type} {H : Hasher}

/-! ## The lookup -/

/-- What `internal_handler` passes on for a node. -/
def blockOf (H : Hasher) (node : IPLDNodeImpl) : Block := ((node.getCID H).1, (node.getRawBytes H).1)

/-- `select_res`, and what is passed to `data_handler` as long as it takes everything. -/
def lookupOf (H : Hasher) (get : CID → Except ε Bytes) (request : Message.Request) : Lookup :=
  if request.selector = [] then
    match getNode get request.rootCid with
    | .error _ => ⟨[], none⟩
    | .ok node => ⟨[blockOf H node], some 1⟩
  else
    match request.rootCid.toBytes with
    | none => ⟨[], none⟩
    | some cidEncoded =>
      let (handed, sentCount) := select get cidEncoded request.selector fun _ => true
      ⟨handed.map (blockOf H), sentCount.toOption⟩

/-- The nodes that a request asks for: the root, and with a selector what its links name. -/
inductive Selected (get : CID → Except ε Bytes) (request : Message.Request) : List IPLDNodeImpl → Prop where
  | root {root : IPLDNodeImpl} (selector : request.selector = []) (found : getNode get request.rootCid = .ok root) :
    Selected get request [root]
  | graph {root : IPLDNodeImpl} {children : List IPLDNodeImpl} (selector : request.selector ≠ [])
      (encoded : request.rootCid.toBytes.isSome = true) (found : getNode get request.rootCid = .ok root)
      (linked : List.Forall₂ (fun link child => getNode get link.cid = .ok child) root.getLinks children) :
    Selected get request (root :: children)

section
variable {get : CID → Except ε Bytes} {request : Message.Request} {nodes : List IPLDNodeImpl}

theorem Selected.pos (h : Selected get request nodes) : 0 < nodes.length := by
  cases h with
  | root => exact Nat.one_pos
  | graph => exact Nat.succ_pos _

theorem Selected.read (h : Selected get request nodes) : ∀ node ∈ nodes, ∃ cid, getNode get cid = .ok node := by
  cases h with
  | root _ found =>
    intro node hnode
    rw [List.mem_singleton.mp hnode]
    exact ⟨_, found⟩
  | graph _ _ found linked =>
    exact List.forall_mem_cons.mpr ⟨⟨_, found⟩, forall₂_right linked fun link child hchild => ⟨_, hchild⟩⟩

theorem handOver_all (handed : List IPLDNodeImpl) (sentCount : ℕ) (nodeSet : List IPLDNodeImpl) :
    handOver (fun _ => true) handed sentCount nodeSet = (handed ++ nodeSet, sentCount + nodeSet.length) := by
  induction nodeSet generalizing handed sentCount with
  | nil => simp [handOver]
  | cons node nodeSet ih =>
    rw [handOver, if_pos rfl, ih, List.append_assoc, List.singleton_append, List.length_cons]
    congr 1
    omega

theorem foldlM_collect {links : List IPLDLink} {children : List IPLDNodeImpl}
    (h : List.Forall₂ (fun link child => getNode get link.cid = .ok child) links children)
    (nodeSet : List IPLDNodeImpl) : links.foldlM (collect get) nodeSet = .ok (nodeSet ++ children) := by
  induction h generalizing nodeSet with
  | nil => rw [List.append_nil]; rfl
  | @cons link child links children hchild _ ih =>
    have hfirst : collect get nodeSet link = .ok (nodeSet ++ [child]) := by rw [collect, hchild]
    rw [List.foldlM_cons, hfirst]
    refine (ih (nodeSet ++ [child])).trans ?_
    rw [List.append_assoc, List.singleton_append]

/-- A lookup finds the whole selection. -/
theorem lookupOf_selected (h : Selected get request nodes) :
    lookupOf H get request = ⟨nodes.map (blockOf H), some nodes.length⟩ := by
  cases h with
  | root selector found =>
    rw [lookupOf, if_pos selector, found]
    rfl
  | @graph root children selector encoded found linked =>
    obtain ⟨cidEncoded, hencoded⟩ := Option.isSome_iff_exists.mp encoded
    have hselect : select get cidEncoded request.selector (fun _ => true) =
        (root :: children, .ok (children.length + 1)) := by
      simp only [select, CID.fromBytes_toBytes hencoded, found, foldlM_collect linked, handOver_all, List.nil_append,
        List.singleton_append, List.length_cons, Nat.zero_add]
    rw [lookupOf, if_neg selector, hencoded]
    simp only [hselect]
    rfl

/-- Otherwise it is an error, never a count of zero. -/
theorem lookupOf_cases (H : Hasher) (get : CID → Except ε Bytes) (request : Message.Request) :
    lookupOf H get request = ⟨[], none⟩ ∨ ∃ nodes, Selected get request nodes := by
  unfold lookupOf
  by_cases hselector : request.selector = []
  · rw [if_pos hselector]
    cases hroot : getNode get request.rootCid with
    | error e => exact .inl rfl
    | ok root => exact .inr ⟨[root], .root hselector hroot⟩
  rw [if_neg hselector]
  cases hencoded : request.rootCid.toBytes with
  | none => exact .inl rfl
  | some cidEncoded =>
    simp only [select, CID.fromBytes_toBytes hencoded]
    cases hroot : getNode get request.rootCid with
    | error e => exact .inl rfl
    | ok root =>
      simp only
      cases hset : root.getLinks.foldlM (collect get) [root] with
      | error e => exact .inl rfl
      | ok nodeSet =>
        obtain ⟨children, -, hchildren⟩ := collect_ok hset
        exact .inr ⟨root :: children, .graph hselector (by rw [hencoded]; rfl) hroot hchildren⟩

theorem lookupOf_not_missing (H : Hasher) (get : CID → Except ε Bytes) (request : Message.Request) :
    (lookupOf H get request).missing = false := by
  obtain herror | ⟨nodes, hselected⟩ := lookupOf_cases H get request
  · rw [herror]
    rfl
  · rw [lookupOf_selected hselected, Lookup.missing]
    exact decide_eq_false fun h => hselected.pos.ne' (Option.some.inj h)

theorem selected_of_found (h : (lookupOf H get request).found = true) :
    ∃ nodes, Selected get request nodes ∧ (lookupOf H get request).blocks = nodes.map (blockOf H) := by
  obtain herror | ⟨nodes, hselected⟩ := lookupOf_cases H get request
  · rw [herror] at h
    cases h
  · exact ⟨nodes, hselected, by rw [lookupOf_selected hselected]⟩

theorem selected_of_mem {b : Block} (h : b ∈ (lookupOf H get request).blocks) :
    ∃ nodes, Selected get request nodes ∧ ∃ node ∈ nodes, b = blockOf H node := by
  obtain herror | ⟨nodes, hselected⟩ := lookupOf_cases H get request
  · rw [herror] at h
    exact (List.not_mem_nil h).elim
  · rw [lookupOf_selected hselected] at h
    obtain ⟨node, hnode, rfl⟩ := List.mem_map.mp h
    exact ⟨nodes, hselected, node, hnode, rfl⟩

/-- A block is under the sha2-256 of its bytes. -/
theorem blockOf_cid {node : IPLDNodeImpl} {cid : CID} (h : getNode get cid = .ok node) :
    (blockOf H node).1 = ⟨.v0, Multicodec.dagPb, H.sha256 (blockOf H node).2⟩ := by
  obtain ⟨bytes, hget⟩ := get_of_getNode h
  have hvalid : node.Valid H := IPLDNodeImpl.valid_createFromRawBytes ((getNode_of_get hget).mp h)
  rw [blockOf, IPLDNodeImpl.getCID_eq hvalid, IPLDNodeImpl.getRawBytes_eq hvalid]

end

/-! ## What reaches the endpoints -/

/-- What `data_handler` makes of some blocks: empty ones are left out. -/
def Workload.outputs (W : Workload Q) (q : Q) (blocks : List Block) : List Output :=
  (blocks.filter fun b => !b.2.isEmpty).map (.block (W.peer q) (W.id q))

/-- What a task that is about to answer has found, and passed on before. -/
def Answers (W : Workload Q) (q : Q) (k : ℕ) (out : List Output) (status : ResponseStatusCode) : Prop :=
  status = .fullContent ∧ (W.lookup q k).found = true ∧ (W.outputs q (W.lookup q k).blocks).Sublist out ∨
    status = .notFound ∧ (W.lookup q k).missing = true

/-- How far a task is. -/
def Passed (W : Workload Q) (q : Q) (k : ℕ) (out : List Output) : TaskPc → Prop
  | .selecting rest => ∃ done, (W.lookup q k).blocks = done ++ rest ∧ (W.outputs q done).Sublist out
  | .checking => (W.lookup q k).missing = true
  | .answering status => Answers W q k out status
  | _ => True

/-- Why something is sent. -/
def Reason (W : Workload Q) (before : List Output) : Output → Prop
  | .block p id b => ∃ q k, k < W.width q ∧ W.peer q = p ∧ W.id q = id ∧ b ∈ (W.lookup q k).blocks ∧ b.2 ≠ []
  | .response p id status extensions =>
    ∃ q, W.peer q = p ∧ W.id q = id ∧ (status = .rejected ∧ extensions = [] ∨
      extensions = (W.request q).extensions ∧ ∃ k < W.width q, Answers W q k before status)

/-- What is known in every state. -/
structure Accounted (W : Workload Q) (s : State Q) : Prop where
  calls : ∀ p q k, s.calling p = some (q, k) → k < W.width q
  tasks : ∀ q k, s.pc (q, k) ≠ .absent → k < W.width q
  passed : ∀ q k, Passed W q k s.out (s.pc (q, k))
  founded : Founded (Reason W) s.out

section
variable {W : Workload Q} {s s' : State Q} {q : Q} {k : ℕ}

theorem outputs_concat (W : Workload Q) (q : Q) (done : List Block) (b : Block) :
    W.outputs q (done ++ [b]) = W.outputs q done ++ if b.2 = [] then [] else [.block (W.peer q) (W.id q) b] := by
  rw [Workload.outputs, List.filter_append, List.map_append, ← Workload.outputs]
  by_cases hempty : b.2 = []
  · simp [hempty]
  · simp [hempty]

theorem Answers.mono {out : List Output} {status : ResponseStatusCode} (h : Answers W q k out status)
    (more : List Output) : Answers W q k (out ++ more) status :=
  h.imp_left fun hfound => ⟨hfound.1, hfound.2.1, hfound.2.2.trans (List.sublist_append_left _ _)⟩

theorem Passed.mono {out : List Output} {pc : TaskPc} (h : Passed W q k out pc) (more : List Output) :
    Passed W q k (out ++ more) pc := by
  cases pc with
  | selecting rest =>
    obtain ⟨done, hblocks, hsent⟩ := h
    exact ⟨done, hblocks, hsent.trans (List.sublist_append_left _ _)⟩
  | answering status => exact Answers.mono h more
  | _ => exact h

theorem accounted_initial (W : Workload Q) : Accounted W initial where
  calls _ _ _ h := absurd h.symm (Option.some_ne_none _)
  tasks _ _ h := absurd rfl h
  passed _ _ := trivial
  founded := founded_nil

theorem Accounted.emit (h : Accounted W s) {o : Output} (ho : Reason W s.out o) : Accounted W (emit s o) where
  calls := h.calls
  tasks := h.tasks
  passed q k := (h.passed q k).mono [o]
  founded := h.founded.append ho

theorem Accounted.sendResponse (h : Accounted W s) {p : PeerId} {id : RequestId} {status : ResponseStatusCode}
    {extensions : List Extension} (ho : Reason W s.out (.response p id status extensions)) :
    Accounted W (sendResponse s p id status extensions) := by
  unfold Responder.sendResponse
  split_ifs
  · exact h.emit ho
  · exact h

/-- The rest of the state says nothing about what is sent. -/
theorem Accounted.of_same (h : Accounted W s) (hcalling : s'.calling = s.calling) (hpc : s'.pc = s.pc)
    (hout : s'.out = s.out) : Accounted W s' where
  calls := hcalling ▸ h.calls
  tasks := hpc ▸ h.tasks
  passed := hpc ▸ hout ▸ h.passed
  founded := hout ▸ h.founded

theorem calling_setCalling (s : State Q) (p : PeerId) (q : Q) (k : ℕ) (p' : PeerId) :
    (setCalling W s p q k).calling p' =
      if p' = p then if k < W.width q then some (q, k) else none else s.calling p' := Function.update_apply _ _ _ _

theorem Accounted.setCalling (h : Accounted W s) (p : PeerId) (q : Q) (k : ℕ) :
    Accounted W (setCalling W s p q k) where
  calls p' q' k' := by
    rw [calling_setCalling]
    split_ifs with hp hk
    · intro heq
      obtain ⟨rfl, rfl⟩ := Prod.mk.inj (Option.some.inj heq)
      exact hk
    · exact False.elim
    · exact h.calls p' q' k'
  tasks := h.tasks
  passed := h.passed
  founded := h.founded

variable [DecidableEq Q]

theorem pc_setPc (s : State Q) (q : Q) (k : ℕ) (pc : TaskPc) (task : Q × ℕ) :
    (setPc s q k pc).pc task = if task = (q, k) then pc else s.pc task := Function.update_apply _ _ _ _

theorem Accounted.setPc (h : Accounted W s) (hk : k < W.width q) {pc : TaskPc} (hpc : Passed W q k s.out pc) :
    Accounted W (setPc s q k pc) where
  calls := h.calls
  tasks q' k' := by
    rw [pc_setPc]
    split_ifs with heq
    · obtain ⟨rfl, rfl⟩ := Prod.mk.inj heq
      exact fun _ => hk
    · exact h.tasks q' k'
  passed q' k' := by
    rw [pc_setPc]
    split_ifs with heq
    · obtain ⟨rfl, rfl⟩ := Prod.mk.inj heq
      exact hpc
    · exact h.passed q' k'
  founded := h.founded

/-- The next block of the selection. -/
theorem advance_selecting {b : Block} {rest : List Block} (hpc : s.pc (q, k) = .selecting (b :: rest))
    (hs : advance W s q k = some s') :
    b.2 = [] ∧ s' = setPc s q k (.selecting rest) ∨
      b.2 ≠ [] ∧ (s' = setPc (Responder.emit s (.block (W.peer q) (W.id q) b)) q k (.selecting rest) ∨
        s' = setPc s q k .refused) := by
  simp only [advance, hpc] at hs
  by_cases hempty : b.2 = []
  · rw [hempty, List.isEmpty_nil, if_pos rfl] at hs
    exact .inl ⟨hempty, (Option.some.inj hs).symm⟩
  refine .inr ⟨hempty, ?_⟩
  rw [if_neg fun h => hempty (List.isEmpty_iff.mp h)] at hs
  split_ifs at hs
  · exact .inl (locked_some hs).2.symm
  · exact .inr (locked_some hs).2.symm

theorem Accounted.selecting (h : Accounted W s) {b : Block} {rest : List Block}
    (hpc : s.pc (q, k) = .selecting (b :: rest)) (hs : advance W s q k = some s') : Accounted W s' := by
  have hk : k < W.width q := h.tasks q k (by rw [hpc]; exact TaskPc.noConfusion)
  have hpassed := h.passed q k
  rw [hpc] at hpassed
  obtain ⟨done, hblocks, hsent⟩ := hpassed
  have hsplit : (W.lookup q k).blocks = (done ++ [b]) ++ rest := by rw [hblocks, List.append_assoc]; rfl
  obtain ⟨hempty, rfl⟩ | ⟨hdata, rfl | rfl⟩ := advance_selecting hpc hs
  · refine h.setPc hk ⟨done ++ [b], hsplit, ?_⟩
    rw [outputs_concat, if_pos hempty, List.append_nil]
    exact hsent
  · have hreason : Reason W s.out (.block (W.peer q) (W.id q) b) :=
      ⟨q, k, hk, rfl, rfl, hblocks ▸ List.mem_append_right done List.mem_cons_self, hdata⟩
    refine (h.emit hreason).setPc hk ⟨done ++ [b], hsplit, ?_⟩
    rw [outputs_concat, if_neg hdata]
    exact hsent.append (List.Sublist.refl _)
  · exact h.setPc hk trivial

theorem Accounted.advance (h : Accounted W s) (hs : advance W s q k = some s') : Accounted W s' := by
  have hstarted : ∀ pc, s.pc (q, k) = pc → pc ≠ .absent → k < W.width q := fun pc hpc hne =>
    h.tasks q k (hpc ▸ hne)
  have hpassed := h.passed q k
  have hgen : ∀ g, Accounted W (setGen s g) := fun g => h.of_same rfl rfl rfl
  cases taskStep_of_advance hs with
  | gone pc => exact h.setPc (hstarted _ pc TaskPc.noConfusion) trivial
  | late pc => exact (hgen _).setPc (hstarted _ pc TaskPc.noConfusion) trivial
  | begins pc => exact h.setPc (hstarted _ pc TaskPc.noConfusion) ⟨[], rfl, List.nil_sublist _⟩
  | skipped pc | passed pc | refuses pc => exact h.selecting pc hs
  | failed pc | refused pc | removed pc | forgotten pc =>
    exact (hgen _).setPc (hstarted _ pc TaskPc.noConfusion) trivial
  | missing pc result => exact (hgen _).setPc (hstarted _ pc TaskPc.noConfusion) result
  | found pc result =>
    rw [pc] at hpassed
    obtain ⟨done, hblocks, hsent⟩ := hpassed
    rw [List.append_nil] at hblocks
    exact (hgen _).setPc (hstarted _ pc TaskPc.noConfusion) (.inl ⟨rfl, result, hblocks ▸ hsent⟩)
  | verdict pc =>
    rw [pc] at hpassed
    exact h.setPc (hstarted _ pc TaskPc.noConfusion) (.inr ⟨rfl, hpassed⟩)
  | undecided pc | unanswered pc => exact h.setPc (hstarted _ pc TaskPc.noConfusion) trivial
  | answered pc =>
    rw [pc] at hpassed
    have hk : k < W.width q := hstarted _ pc TaskPc.noConfusion
    exact (h.sendResponse ⟨q, rfl, rfl, .inr ⟨rfl, k, hk, hpassed⟩⟩).setPc hk trivial

theorem Accounted.step (h : Accounted W s) {a : Action Q} (hs : step W s a = some s') : Accounted W s' := by
  cases a with
  | accept q =>
    simp only [Responder.step, accept] at hs
    split_ifs at hs
    · rw [← Option.some.inj hs]
      have harrived : Accounted W (markArrived s q) := h.of_same rfl rfl rfl
      exact harrived.sendResponse ⟨q, rfl, rfl, .inl ⟨rfl, rfl⟩⟩
    · rw [← Option.some.inj hs]
      have hopened : Accounted W (setSink (markArrived s q) (W.peer q) (W.id q) true) := h.of_same rfl rfl rfl
      exact hopened.setCalling (W.peer q) q 0
  | call q k =>
    simp only [Responder.step, call] at hs
    split_ifs at hs with hcalling hstarted
    · have hk : k < W.width q := h.calls _ _ _ (not_not.mp hcalling)
      rw [← Option.some.inj hs]
      have hregistered : Accounted W (setGen s (s.gen.registerStatus (W.id q) (q, k))) := h.of_same rfl rfl rfl
      have hposted : Accounted W (Responder.setPc (setGen s (s.gen.registerStatus (W.id q) (q, k))) q k .posted) :=
        hregistered.setPc hk trivial
      exact hposted.setCalling (W.peer q) q (k + 1)
    · have hk : k < W.width q := h.calls _ _ _ (not_not.mp hcalling)
      rw [← Option.some.inj hs]
      have hfinished : Accounted W (Responder.setPc s q k .finished) := h.setPc hk trivial
      exact hfinished.setCalling (W.peer q) q (k + 1)
  | drop p id =>
    simp only [Responder.step] at hs
    split_ifs at hs
    rw [← Option.some.inj hs]
    exact h.of_same rfl rfl rfl
  | advance q k => exact h.advance hs
  | stop i | destroy i =>
    rw [← Option.some.inj hs]
    exact h.of_same rfl rfl rfl

theorem accounted_run {as : List (Action Q)} (hr : run W initial as = some s) : Accounted W s :=
  @Runs.run_invariant _ _ _ (fun _ _ => True) (Accounted W) (fun _ _ _ h _ hs => h.step hs) _ _ _
    (accounted_initial W) (Runs.everyStep_true _ _) hr

end

/-! ## With the service -/

/-- Every instance looks into the store of its own service. -/
def Workload.serve (W : Workload Q) (H : Hasher) (stores : InstanceId → CID → Except ε Bytes) : Workload Q :=
  { W with lookup := fun q k => lookupOf H (stores (W.inst q k)) (W.request q) }

section
variable {W : Workload Q} {stores : InstanceId → CID → Except ε Bytes} {before : List Output} {p : PeerId}
  {id : RequestId}

theorem Reason.content {b : Block} (h : Reason (W.serve H stores) before (.block p id b)) :
    ∃ q k nodes, k < W.width q ∧ W.peer q = p ∧ W.id q = id ∧ Selected (stores (W.inst q k)) (W.request q) nodes ∧
      (∃ node ∈ nodes, b = blockOf H node) ∧ b.1 = ⟨.v0, Multicodec.dagPb, H.sha256 b.2⟩ ∧ b.2 ≠ [] := by
  obtain ⟨q, k, hk, hpeer, hid, hmem, hdata⟩ := h
  obtain ⟨nodes, hselected, node, hnode, rfl⟩ := selected_of_mem hmem
  obtain ⟨cid, hread⟩ := hselected.read node hnode
  exact ⟨q, k, nodes, hk, hpeer, hid, hselected, ⟨node, hnode, rfl⟩, blockOf_cid hread, hdata⟩

theorem Reason.answer {status : ResponseStatusCode} {extensions : List Extension}
    (h : Reason (W.serve H stores) before (.response p id status extensions)) :
    ∃ q, W.peer q = p ∧ W.id q = id ∧ (status = .rejected ∧ extensions = [] ∨
      status = .fullContent ∧ extensions = (W.request q).extensions ∧ ∃ k < W.width q, ∃ nodes,
        Selected (stores (W.inst q k)) (W.request q) nodes ∧
        (W.outputs q (nodes.map (blockOf H))).Sublist before) := by
  obtain ⟨q, hpeer, hid, hrejected | ⟨hextensions, k, hk, hanswers⟩⟩ := h
  · exact ⟨q, hpeer, hid, .inl hrejected⟩
  refine ⟨q, hpeer, hid, .inr ?_⟩
  obtain ⟨hstatus, hfound, hsent⟩ | ⟨-, hmissing⟩ := hanswers
  · obtain ⟨nodes, hselected, hblocks⟩ := selected_of_found hfound
    exact ⟨hstatus, hextensions, k, hk, nodes, hselected, hblocks ▸ hsent⟩
  · exact absurd hmissing (Bool.eq_false_iff.mp (lookupOf_not_missing _ _ _))

end

/-- One request for a root, at an instance that has a node of one letter for every CID. -/
def rootRequested : Workload Unit where
  peer _ := 7
  request _ := sampleRequest
  width _ := 1
  inst _ _ := 0
  lookup _ _ := ⟨[], none⟩

def letterStore : InstanceId → CID → Except Unit Bytes := fun _ _ => .ok [0x0a, 1, 0x41]

/-- The request is accepted, and its only task is run to the end. -/
def answeringRun : List (Action Unit) :=
  .accept () :: .call () 0 :: List.replicate 5 (.advance () 0)

end IpfsLite.Graphsync.Responder
