import IpfsLite.Graphsync.FeedbackLedger
import IpfsLite.Graphsync.Node

/-! # What the operations of a node have in common

The feedback that a context gives, and the operations that only find a context and go to it, for any
guarantee that does not see the bookkeeping of the instances. -/
namespace IpfsLite.Graphsync.Node
set_option autoImplicit false

open Reentrant

/-- The steps that concern one instance's own tables, the clock, or drop a peer. -/
structure Silent (s t : Node) : Prop where
  contexts : t.contexts = s.contexts
  feedbacks : t.network.feedbacks = s.network.feedbacks
  networkStarted : t.network.started = s.network.started
  activeRequests : t.network.activeRequestsPerPeer = s.network.activeRequestsPerPeer
  peers {peer : PeerId} {c : ContextId} :
    t.network.peers.find? peer = some c → s.network.peers.find? peer = some c
  started (i : InstanceId) : (t.instances i).started = (s.instances i).started
  locked : t.locked = s.locked
  deadlock : t.deadlock = s.deadlock

theorem setInstance_started {i : InstanceId} {g : GraphsyncImpl} {s : Node}
    (h : g.started = (s.instances i).started) (j : InstanceId) :
    ((s.setInstance i g).instances j).started = (s.instances j).started := by
  by_cases hj : j = i
  · subst hj
    simpa [setInstance] using h
  · simp [setInstance, hj]

namespace Silent
variable {s t u : Node}

theorem refl (s : Node) : Silent s s := ⟨rfl, rfl, rfl, rfl, fun h => h, fun _ => rfl, rfl, rfl⟩

theorem trans (h : Silent s t) (h' : Silent t u) : Silent s u :=
  ⟨h'.contexts.trans h.contexts, h'.feedbacks.trans h.feedbacks,
    h'.networkStarted.trans h.networkStarted, h'.activeRequests.trans h.activeRequests,
    fun hp => h.peers (h'.peers hp), fun i => (h'.started i).trans (h.started i),
    h'.locked.trans h.locked, h'.deadlock.trans h.deadlock⟩

theorem setLocal (s : Node) (i : InstanceId) (l : LocalRequests) : Silent s (s.setLocal i l) :=
  ⟨rfl, rfl, rfl, rfl, fun h => h, setInstance_started rfl, rfl, rfl⟩

theorem setTracked (s : Node) (i : InstanceId) (m : AssocMap CID RequestTrackingInfo) :
    Silent s (s.setTracked i m) :=
  ⟨rfl, rfl, rfl, rfl, fun h => h, setInstance_started rfl, rfl, rfl⟩

theorem modifyTracked (s : Node) (i : InstanceId) (rootCid : CID)
    (f : RequestTrackingInfo → RequestTrackingInfo) : Silent s (s.modifyTracked i rootCid f) :=
  setTracked s i _

theorem peerClosed (s : Node) (peer : PeerId) : Silent s (s.peerClosed peer) := by
  refine ⟨rfl, rfl, rfl, rfl, fun {q c} h => ?_, fun _ => rfl, rfl, rfl⟩
  simp only [Node.peerClosed, setNetwork, OrdMap.find?_erase] at h
  by_cases hq : q = peer
  · rw [if_pos hq] at h
    cases h
  · rwa [if_neg hq] at h

theorem newRequest (s : Node) (i : InstanceId) (rootCid : CID) (selector : Bytes)
    (extensions : List Extension) : Silent s (s.newRequest i rootCid selector extensions).1 :=
  ⟨rfl, rfl, rfl, rfl, fun h => h, setInstance_started rfl, rfl, rfl⟩

end Silent

/-- A program of a context that keeps every ledger of its feedbacks. -/
def Lawful {α : Type} (p : PeerContext.Action α) : Prop :=
  ∀ (q : RequestId → ResponseStatusCode → Bool) (fb : InstanceId) (x : Trace PeerContext PeerContext.Call),
    PeerContext.LedgerKeeps q fb x p

/-- Every peer's context is one that has been made. -/
def PeersOk (s : Node) : Prop :=
  ∀ (peer : PeerId) (c : ContextId), s.network.peers.find? peer = some c → c < s.contexts.length

/-- What holds of the tables of the network between any two steps. -/
structure Sane (s : Node) : Prop where
  peers : s.PeersOk
  /-- nothing is ever entered in `active_requests_per_peer_` -/
  unused : s.network.activeRequestsPerPeer = .empty
  registered {i : InstanceId} : (s.instances i).started = true → i ∈ s.network.feedbacks

theorem Sane.silent {s t : Node} (h : s.Sane) (hst : Silent s t) : t.Sane where
  peers peer c hp := hst.contexts.symm ▸ h.peers peer c (hst.peers hp)
  unused := hst.activeRequests.trans h.unused
  registered {i} hi := hst.feedbacks.symm ▸ h.registered ((hst.started i).symm.trans hi)

theorem Sane.setTrace {s : Node} (h : s.Sane) (c : ContextId)
    (tr : Trace PeerContext PeerContext.Call) : (s.setTrace c tr).Sane where
  peers peer d hp := by
    simpa only [Node.setTrace, List.length_set] using h.peers peer d hp
  unused := h.unused
  registered := h.registered

theorem Sane.initial : initial.Sane where
  peers peer c hp := by
    rw [show Node.initial.network.peers.find? peer = none from OrdMap.find?_empty peer] at hp
    cases hp
  unused := rfl
  registered hi := absurd hi Bool.false_ne_true

/-- What the network has on record matters only where an instance is started. -/
theorem Sane.setNetwork {s : Node} (h : s.Sane) {n : Network}
    (hpeers : ∀ peer c, n.peers.find? peer = some c → s.network.peers.find? peer = some c)
    (hunused : n.activeRequestsPerPeer = .empty)
    (hregistered : ∀ i, (s.instances i).started = true → i ∈ n.feedbacks) : (s.setNetwork n).Sane where
  peers peer c hp := h.peers peer c (hpeers peer c hp)
  unused := hunused
  registered {i} hi := hregistered i hi

theorem Sane.setInstance {s : Node} (h : s.Sane) {i : InstanceId} {g : GraphsyncImpl}
    (hg : g.started = true → i ∈ s.network.feedbacks) : (s.setInstance i g).Sane where
  peers := h.peers
  unused := h.unused
  registered {j} hj := by
    by_cases hji : j = i
    · subst hji
      exact hg (by simpa [Node.setInstance] using hj)
    · exact h.registered (by simpa [Node.setInstance, hji] using hj)

/-- An instance that is not started may be taken off the list. -/
theorem Sane.registered_of_ne {s : Node} (h : s.Sane) {i j : InstanceId}
    (hi : (s.instances i).started = false) (hj : (s.instances j).started = true) :
    j ∈ s.network.feedbacks.filter fun k => k ≠ i := by
  refine List.mem_filter.mpr ⟨h.registered hj, decide_eq_true ?_⟩
  rintro rfl
  rw [hi] at hj
  cases hj

theorem Sane.networkStart {s : Node} (h : s.Sane) (i : InstanceId) : (s.networkStart i).Sane :=
  h.setNetwork (fun _ _ hp => hp) h.unused fun _ hj => List.mem_append_left _ (h.registered hj)

theorem Sane.createContext {s : Node} (h : s.Sane) (peer : PeerId) : (s.createContext peer).1.Sane where
  peers q c hp := by
    simp only [Node.createContext, OrdMap.find?_insert, List.length_append, List.length_singleton] at hp ⊢
    by_cases hq : q = peer
    · rw [if_pos hq, Option.some.injEq] at hp
      exact hp ▸ Nat.lt_succ_self _
    · rw [if_neg hq] at hp
      exact Nat.lt_succ_of_lt (h.peers q c hp)
  unused := h.unused
  registered := h.registered

/-! ## The rules -/

/-- For programs that touch the tables of the instances and make the calls they may. -/
structure CallRules (may : Call → Prop) (R G : Trace Node Call → Trace Node Call → Prop)
    (V : Call → Trace Node Call → Prop) (I : Trace Node Call → Prop) : Prop where
  rely : Rely R G I
  silent {s t : Node} {calls : List Call} : Silent s t → G (s, calls) (t, calls)
  call {x : Trace Node Call} {c : Call} : may c → Keeps R G V I x (Prog.call c)

/-- For what the contexts call. -/
structure HandlerRules (R G : Trace Node Call → Trace Node Call → Prop)
    (V : Call → Trace Node Call → Prop) (I : Trace Node Call → Prop) : Prop
    extends CallRules (fun _ => True) R G V I where
  critical {x : Trace Node Call} (i : InstanceId) {α : Type} {f : Node → Node × α} :
    (∀ s, Silent s (f s).1) → Keeps R G V I x (withLock i (Prog.update f))

/-- For finding the context of a peer. -/
structure TableRules (R G : Trace Node Call → Trace Node Call → Prop) (I : Trace Node Call → Prop) :
    Prop where
  rely : Rely R G I
  silent {s t : Node} {calls : List Call} : Silent s t → G (s, calls) (t, calls)
  peers {x : Trace Node Call} : I x → x.1.PeersOk
  create {x : Trace Node Call} (peer : PeerId) : I x → G x ((x.1.createContext peer).1, x.2)

structure NodeRules (R G : Trace Node Call → Trace Node Call → Prop)
    (V : Call → Trace Node Call → Prop) (I : Trace Node Call → Prop) : Prop
    extends HandlerRules R G V I, TableRules R G I where
  onContext {x : Trace Node Call} {c : ContextId} {α : Type} {p : PeerContext.Action α} :
    Lawful p → (I x → c < x.1.contexts.length) → Keeps R G V I x (onContext c p)

section
variable {may : Call → Prop} {R G : Trace Node Call → Trace Node Call → Prop}
  {V : Call → Trace Node Call → Prop} {I : Trace Node Call → Prop} {x : Trace Node Call}

theorem keeps_silent (h : CallRules may R G V I) {f : Node → Node} (hf : Silent x.1 (f x.1)) :
    Keeps R G V I x (Prog.modify f) :=
  Keeps.modify fun _ => h.silent hf

theorem keeps_silent_bind {α : Type} (h : CallRules may R G V I) {f : Node → Node}
    {p : Unit → Action α} (hf : Silent x.1 (f x.1)) (hp : Keeps R G V I (f x.1, x.2) (p ())) :
    Keeps R G V I x (Prog.modify f >>= p) :=
  Keeps.modify_bind h.rely (fun _ => h.silent hf) hp

theorem keeps_localOnResponse (h : CallRules may R G V I) (i : InstanceId) (id : RequestId)
    (status : ResponseStatusCode) (extensions : List Extension) (origin : Origin)
    (hmay : may (.progress i id status extensions origin)) :
    Keeps R G V I x (localOnResponse i id status extensions origin) :=
  Keeps.get (keeps_silent_bind h (Silent.setLocal _ i _) (Keeps.when h.rely fun _ => h.call hmay))

/-- The loop of `cleanupOldRequests`. -/
theorem keeps_cleanupRequest (h : CallRules may R G V I) (i : InstanceId) (now : ℕ) (rootCid : CID)
    (hmay : ∀ id, may (.progress i id .timeout [] .cleanup)) :
    Keeps R G V I x (cleanupRequest i now rootCid) := by
  refine Keeps.get ?_
  cases (x.1.instances i).trackedRequests.find? rootCid with
  | none => exact Keeps.pure h.rely ()
  | some info =>
    refine Keeps.ite (fun _ => keeps_silent h (Silent.setTracked x.1 i _)) fun _ => ?_
    refine Keeps.ite (fun _ => ?_) fun _ => Keeps.pure h.rely ()
    refine keeps_silent_bind h (Silent.modifyTracked x.1 i _ _) ?_
    refine Keeps.bind h.rely ?_ fun _ y _ => keeps_silent h (Silent.setTracked y.1 i _)
    exact keeps_localOnResponse h i info.requestId .timeout [] .cleanup (hmay info.requestId)

theorem keeps_cancelAll (h : CallRules (fun _ => True) R G V I) (i : InstanceId) (ids : List RequestId) :
    Keeps R G V I x (cancelAll i ids) :=
  Keeps.forM h.rely fun _ _ _ _ => h.call trivial

theorem keeps_cancelActive (h : CallRules (fun _ => True) R G V I) (i : InstanceId) :
    Keeps R G V I x (cancelActive i) :=
  Keeps.get (keeps_silent_bind h (Silent.setLocal _ i _) (keeps_cancelAll h i _))

theorem keeps_cancelRejected (h : CallRules (fun _ => True) R G V I) (i : InstanceId) :
    Keeps R G V I x (cancelRejected i) :=
  Keeps.get (keeps_silent_bind h (Silent.setLocal _ i _) (keeps_cancelAll h i _))

theorem keeps_notifyRejected (h : CallRules (fun _ => True) R G V I) (i : InstanceId) :
    Keeps R G V I x (notifyRejected i) := by
  refine Keeps.bind h.rely (keeps_cancelRejected h i) fun _ y _ => keeps_silent h ?_
  by_cases he : (y.1.instances i).localRequests.rejectedRequests.isEmpty = true
  · rw [if_pos he]
    exact Silent.setLocal y.1 i _
  · rw [if_neg he]
    exact Silent.refl y.1

/-! ## Feedback of the contexts -/

theorem keeps_onResponse (h : HandlerRules R G V I) (i : InstanceId) (id : RequestId)
    (status : ResponseStatusCode) (extensions : List Extension) :
    Keeps R G V I x (onResponse i id status extensions) := by
  have hlocal (y : Trace Node Call) :=
    keeps_localOnResponse (x := y) h.toCallRules i id status extensions .response trivial
  refine Keeps.get (Keeps.ite (fun _ => ?_) fun _ => Keeps.pure h.rely ())
  cases (x.1.instances i).localRequests.getRequestRootCid id with
  | none => exact hlocal _
  | some rootCid =>
    refine Keeps.bind h.rely (h.critical i (f := fun s => (_, ())) fun s => ?_) fun _ y _ => hlocal y
    exact Silent.modifyTracked s i rootCid _

theorem keeps_onBlock (h : HandlerRules R G V I) (i : InstanceId) (rootCid cid : CID) (data : Bytes) :
    Keeps R G V I x (onBlock i rootCid cid data) := by
  refine Keeps.get (Keeps.ite (fun _ => ?_) fun _ => Keeps.pure h.rely ())
  refine Keeps.bind h.rely (h.critical i fun s => Silent.modifyTracked s i rootCid _) fun tracked y _ => ?_
  cases tracked with
  | none => exact Keeps.pure h.rely ()
  | some info =>
    refine Keeps.bind h.rely (h.call trivial) fun _ z _ => Keeps.when h.rely fun _ => ?_
    exact h.critical i (f := fun s => (_, ())) fun s => Silent.modifyTracked s i rootCid _

theorem keeps_handle (h : HandlerRules R G V I) (c : ContextId) (d : PeerContext.Call) :
    Keeps R G V I x (handle c d) := by
  cases d with
  | onResponse i id status extensions => exact keeps_onResponse h i id status extensions
  | onRemoteRequest i request => exact Keeps.pure h.rely ()
  | onBlock i rootCid cid data => exact keeps_onBlock h i rootCid cid data
  | peerClosed status => exact keeps_silent h.toCallRules (Silent.peerClosed x.1 _)

/-! ## Finding a context -/

/-- The context that is found has been made, and finding it drops a closed one or makes one. -/
theorem findContext_cases (s : Node) (peer : PeerId) (createIfNotFound : Bool) :
    (∃ t, Silent s t ∧ ((s.findContext peer createIfNotFound) = (t, none) ∨
      createIfNotFound = true ∧ s.findContext peer createIfNotFound = t.createContext peer)) ∨
    ∃ c, s.network.peers.find? peer = some c ∧ s.findContext peer createIfNotFound = (s, some c) := by
  unfold findContext
  by_cases hs : s.network.started = false
  · rw [if_pos hs]
    exact .inl ⟨s, Silent.refl s, .inl rfl⟩
  rw [if_neg hs]
  cases hp : s.network.peers.find? peer with
  | none =>
    refine .inl ⟨s, Silent.refl s, ?_⟩
    cases createIfNotFound with
    | true => exact .inr ⟨rfl, rfl⟩
    | false => exact .inl rfl
  | some c =>
    by_cases hc : (s.context c).getState = .isClosed
    · simp only [if_pos hc]
      refine .inl ⟨s.peerClosed peer, Silent.peerClosed s peer, ?_⟩
      cases createIfNotFound with
      | true => exact .inr ⟨rfl, rfl⟩
      | false => exact .inl rfl
    · simp only [if_neg hc]
      exact .inr ⟨c, rfl, rfl⟩

theorem createContext_length (s : Node) (peer : PeerId) :
    (s.createContext peer).2 = some s.contexts.length ∧
      (s.createContext peer).1.contexts.length = s.contexts.length + 1 := by
  simp [createContext]

/-- Looking for a context is a step, and what is found is there. -/
theorem found_context (h : TableRules R G I) (hI : I x) (peer : PeerId) (createIfNotFound : Bool) :
    G x ((x.1.findContext peer createIfNotFound).1, x.2) ∧
      ∀ c, (x.1.findContext peer createIfNotFound).2 = some c →
        c < (x.1.findContext peer createIfNotFound).1.contexts.length := by
  rcases findContext_cases x.1 peer createIfNotFound with
    ⟨t, hst, hnone | ⟨-, hcreate⟩⟩ | ⟨c, hpeer, hfound⟩
  · rw [hnone]
    refine ⟨h.silent hst, fun c hc => ?_⟩
    cases hc
  · have ht : G x (t, x.2) := h.silent hst
    rw [hcreate]
    obtain ⟨hsome, hlen⟩ := createContext_length t peer
    refine ⟨h.rely.trans ht (h.create (x := (t, x.2)) peer (h.rely.stable hI ht)), fun c hc => ?_⟩
    rw [hsome, Option.some.injEq] at hc
    rw [← hc, hlen]
    exact Nat.lt_succ_self _
  · rw [hfound]
    refine ⟨h.rely.refl x, fun d hd => ?_⟩
    rw [Option.some.injEq] at hd
    exact hd ▸ h.peers hI peer c hpeer

theorem canSendRequest_moves (h : TableRules R G I) (hI : I x) (peer : PeerId) :
    G x ((x.1.canSendRequest peer).1, x.2) := by
  have hfound := (found_context h hI peer true).1
  unfold canSendRequest
  cases hf : x.1.findContext peer true with
  | mk t found =>
    rw [hf] at hfound
    cases found with
    | none => exact hfound
    | some c =>
      by_cases hc : (t.context c).getState = .isClosed
      · simp only [if_pos hc]
        exact h.rely.trans hfound (h.silent (Silent.peerClosed t peer))
      · simp only [if_neg hc]
        exact hfound

/-- The operations that find the context of a peer and go to it. -/
theorem keeps_found (h : NodeRules R G V I) (peer : PeerId) (createIfNotFound : Bool)
    {p : PeerContext.Action Unit} (hp : Lawful p) :
    Keeps R G V I x (do
      let found ← Prog.update (findContext peer createIfNotFound)
      match found with
      | none => pure ()
      | some c => onContext c p) := by
  intro hI
  obtain ⟨hmove, hthere⟩ := found_context h.toTableRules hI peer createIfNotFound
  have hI' := h.rely.stable hI hmove
  have hrest : Keeps R G V I ((x.1.findContext peer createIfNotFound).1, x.2)
      (match (x.1.findContext peer createIfNotFound).2 with
        | none => pure ()
        | some c => onContext c p) := by
    cases hc : (x.1.findContext peer createIfNotFound).2 with
    | none => exact Keeps.pure h.rely ()
    | some c => exact h.onContext hp fun _ => hthere c hc
  exact (hrest hI').mono fun _ _ hy => h.rely.trans hmove hy

theorem keeps_networkOnStreamAccepted (h : NodeRules R G V I) (peer : PeerId) (stream : StreamPtr) :
    Keeps R G V I x (networkOnStreamAccepted peer stream) :=
  Keeps.get (Keeps.ite (fun _ => keeps_found h peer true fun _ _ _ =>
    PeerContext.keeps_onStreamAccepted PeerContext.ledger_writeRules stream) fun _ => Keeps.pure h.rely ())

theorem keeps_event (h : NodeRules R G V I) (c : ContextId) (e : Event) :
    Keeps R G V I x (op (.event c e)) :=
  Keeps.get (Keeps.ite (fun hc => h.onContext (fun _ _ _ => PeerContext.ledger_op _) fun _ => hc)
    fun _ => Keeps.pure h.rely ())

end
end IpfsLite.Graphsync.Node
