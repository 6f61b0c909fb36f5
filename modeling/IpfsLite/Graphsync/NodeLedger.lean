import IpfsLite.Graphsync.NodeRules

/-! # The ledgers of all contexts

Whatever the instances, the peers and the callbacks of the user do, every context stays with the
feedbacks it was made with and keeps its ledger balanced; and nothing is entered in the table by
which a request could be cancelled. -/
namespace IpfsLite.Graphsync.Node
set_option autoImplicit false

open Reentrant
open PeerContext (told due LedgerKept LedgerKeeps)

/-- One node after the other, as far as the ledgers of some of its contexts go. A context that is
not there yet counts as `absent`. -/
structure KeptOn (on : ContextId → Prop) (q : RequestId → ResponseStatusCode → Bool)
    (fb : InstanceId) (s t : Node) : Prop where
  sane : s.Sane → t.Sane
  length : s.contexts.length ≤ t.contexts.length
  feedbacks {c : ContextId} : on c → c < s.contexts.length →
    (t.context c).graphsyncFeedbacks = (s.context c).graphsyncFeedbacks
  balance {c : ContextId} : on c →
    told q fb (t.trace c).2 + due q fb (s.context c) = told q fb (s.trace c).2 + due q fb (t.context c)

abbrev NodeKept := KeptOn fun _ => True

section
variable {on : ContextId → Prop} {q : RequestId → ResponseStatusCode → Bool} {fb : InstanceId}
  {s t u : Node} {x : Trace Node Call}

theorem KeptOn.refl (s : Node) : KeptOn on q fb s s :=
  ⟨id, le_refl _, fun _ _ => rfl, fun _ => rfl⟩

theorem KeptOn.trans (h : KeptOn on q fb s t) (h' : KeptOn on q fb t u) : KeptOn on q fb s u where
  sane hs := h'.sane (h.sane hs)
  length := h.length.trans h'.length
  feedbacks hon hc := (h'.feedbacks hon (hc.trans_le h.length)).trans (h.feedbacks hon hc)
  balance hon := by
    have := h.balance hon
    have := h'.balance hon
    omega

theorem KeptOn.restrict (h : NodeKept q fb s t) : KeptOn on q fb s t :=
  ⟨h.sane, h.length, fun _ => h.feedbacks trivial, fun _ => h.balance trivial⟩

/-- Steps outside the contexts. -/
theorem KeptOn.of_same (hc : t.contexts = s.contexts) (hs : s.Sane → t.Sane) :
    KeptOn on q fb s t := by
  have htrace (c : ContextId) : t.trace c = s.trace c := by rw [trace, trace, hc]
  refine ⟨hs, le_of_eq (congrArg List.length hc).symm, fun {c} _ _ => ?_, fun {c} _ => ?_⟩
  · rw [context, context, htrace]
  · rw [context, context, htrace]

theorem KeptOn.of_silent (h : Silent s t) : KeptOn on q fb s t := .of_same h.contexts fun hs => hs.silent h

theorem trace_of_length_le {c : ContextId} (h : s.contexts.length ≤ c) : s.trace c = absent :=
  List.getD_eq_default _ _ h

theorem trace_setTrace {c : ContextId} (hc : c < s.contexts.length)
    (tr : Trace PeerContext PeerContext.Call) : (s.setTrace c tr).trace c = tr := by
  simp [trace, setTrace, List.getD_eq_getElem?_getD, hc]

theorem trace_setTrace_of_ne {c d : ContextId} (h : d ≠ c) (tr : Trace PeerContext PeerContext.Call) :
    (s.setTrace c tr).trace d = s.trace d := by
  simp [trace, setTrace, List.getD_eq_getElem?_getD, Ne.symm h]

theorem length_setTrace (c : ContextId) (tr : Trace PeerContext PeerContext.Call) :
    (s.setTrace c tr).contexts.length = s.contexts.length := List.length_set

theorem trace_createContext (peer : PeerId) {c : ContextId} (h : c < s.contexts.length) :
    (s.createContext peer).1.trace c = s.trace c := by
  simp [trace, createContext, List.getD_eq_getElem?_getD, List.getElem?_append_left h]

/-- A context knows the feedbacks that are registered when it is made, and has nothing to tell. -/
theorem trace_createContext_new (s : Node) (peer : PeerId) :
    (s.createContext peer).1.trace s.contexts.length =
      (.create peer s.network.feedbacks ⟨fun _ => false, s.now⟩, []) := by
  simp [trace, createContext, List.getD_eq_getElem?_getD]

theorem KeptOn.createContext (s : Node) (peer : PeerId) :
    KeptOn on q fb s (s.createContext peer).1 := by
  have hlen : (s.createContext peer).1.contexts.length = s.contexts.length + 1 :=
    (createContext_length s peer).2
  refine ⟨fun hs => hs.createContext peer, by omega, fun {c} _ hc => ?_, fun {c} _ => ?_⟩
  · rw [context, context, trace_createContext peer hc]
  · rw [context, context]
    rcases Nat.lt_trichotomy c s.contexts.length with hc | rfl | hc
    · rw [trace_createContext peer hc]
    · rw [trace_createContext_new, trace_of_length_le (le_refl _)]
      simp [told, due, PeerContext.create, absent]
    · rw [trace_of_length_le (le_of_lt hc), trace_of_length_le (hlen ▸ hc)]

/-- While a context is at work only the others are accounted for. -/
theorem KeptOn.suspend {c : ContextId} (h : KeptOn (fun d => d ≠ c) q fb s t)
    (tr : Trace PeerContext PeerContext.Call) : KeptOn (fun d => d ≠ c) q fb s (t.setTrace c tr) := by
  refine ⟨fun hs => (h.sane hs).setTrace c tr, ?_, fun {d} hd hlt => ?_, fun {d} hd => ?_⟩
  · rw [length_setTrace]
    exact h.length
  · rw [context, trace_setTrace_of_ne hd]
    exact h.feedbacks hd hlt
  · rw [context, context, trace_setTrace_of_ne hd]
    exact h.balance hd

theorem KeptOn.settle {c : ContextId} (hc : c < s.contexts.length)
    (h : KeptOn (fun d => d ≠ c) q fb s t) {tr : Trace PeerContext PeerContext.Call}
    (htr : LedgerKept q fb (s.trace c) tr) : NodeKept q fb s (t.setTrace c tr) := by
  have hown := trace_setTrace (hc.trans_le h.length) tr
  have hothers := h.suspend tr
  refine ⟨hothers.sane, hothers.length, fun {d} _ hlt => ?_, fun {d} _ => ?_⟩
  · by_cases hd : d = c
    · subst hd
      rw [context, hown]
      exact htr.feedbacks
    · exact hothers.feedbacks hd hlt
  · by_cases hd : d = c
    · subst hd
      rw [context, context, hown]
      exact htr.balance
    · exact hothers.balance hd

/-! ## The rules -/

abbrev NodeKeeps (q : RequestId → ResponseStatusCode → Bool) (fb : InstanceId) (x : Trace Node Call)
    {α : Type} (p : Action α) : Prop :=
  Keeps (fun y z => NodeKept q fb y.1 z.1) (fun y z => NodeKept q fb y.1 z.1) (fun _ y => y.1.Sane)
    (fun y => y.1.Sane) x p

theorem node_rely : Rely (fun y z : Trace Node Call => NodeKept q fb y.1 z.1)
    (fun y z => NodeKept q fb y.1 z.1) fun y => y.1.Sane where
  refl y := KeptOn.refl y.1
  trans h h' := h.trans h'
  absorb h := h
  stable hy h := h.sane hy

theorem node_modify {f : Node → Node} (hf : (f x.1).contexts = x.1.contexts)
    (hs : x.1.Sane → (f x.1).Sane) : NodeKeeps q fb x (Prog.modify f) :=
  Keeps.modify fun _ => KeptOn.of_same hf hs

theorem node_modify_bind {α : Type} {f : Node → Node} {p : Unit → Action α}
    (hf : (f x.1).contexts = x.1.contexts) (hs : x.1.Sane → (f x.1).Sane)
    (hp : NodeKeeps q fb (f x.1, x.2) (p ())) : NodeKeeps q fb x (Prog.modify f >>= p) :=
  Keeps.modify_bind node_rely (fun _ => KeptOn.of_same hf hs) hp

/-- The mutexes are nothing to the ledgers. -/
theorem node_withLock (i : InstanceId) {α : Type} {p : Action α}
    (hp : ∀ y, NodeKeeps q fb y p) : NodeKeeps q fb x (withLock i p) := by
  refine node_modify_bind rfl (fun h => ⟨h.peers, h.unused, h.registered⟩) ?_
  refine Keeps.bind node_rely (hp _) fun a y _ => ?_
  exact node_modify_bind rfl (fun h => ⟨h.peers, h.unused, h.registered⟩) (Keeps.pure node_rely a)

theorem node_callRules : CallRules (fun _ => True) (fun y z : Trace Node Call => NodeKept q fb y.1 z.1)
    (fun y z => NodeKept q fb y.1 z.1) (fun _ y => y.1.Sane) fun y => y.1.Sane where
  rely := node_rely
  silent := .of_silent
  call _ := Keeps.call node_rely fun hI => ⟨hI, KeptOn.refl _⟩

theorem node_handlerRules : HandlerRules (fun y z : Trace Node Call => NodeKept q fb y.1 z.1)
    (fun y z => NodeKept q fb y.1 z.1) (fun _ y => y.1.Sane) fun y => y.1.Sane where
  toCallRules := node_callRules
  critical i _ _ hf := node_withLock i fun y _ => KeptOn.of_silent (hf y.1)

/-- A context inside the node: its ledger is its own business, and the handlers keep all the others. -/
theorem node_onContext {c : ContextId} {α : Type} {p : PeerContext.Action α} (hp : Lawful p)
    (hc : x.1.Sane → c < x.1.contexts.length) : NodeKeeps q fb x (onContext c p) := by
  intro hI
  have hc := hc hI
  refine Meets.embed (R := LedgerKept q fb) (fun y : Trace Node Call => KeptOn (fun d => d ≠ c) q fb x.1 y.1)
    (fun d tr y hy _ => ?_) (fun _ tr y hy htr => hy.settle hc htr) (p (x.1.context c)) x
    (KeptOn.refl x.1) (hp q fb (x.1.trace c) trivial)
  have hct : c < y.1.contexts.length := hc.trans_le hy.length
  have hown := trace_setTrace hct tr
  have hput := hy.suspend tr
  have hhandle : NodeKeeps q fb (y.1.setTrace c tr, y.2) (handle c d) :=
    keeps_handle node_handlerRules c d
  refine (hhandle (hput.sane hI)).mono fun _ z hz => ⟨hput.trans (KeptOn.restrict hz), ?_, ?_⟩
  · have hfeedbacks := hz.feedbacks (c := c) trivial (by rwa [length_setTrace])
    rwa [context, context, hown] at hfeedbacks
  · have hbalance := hz.balance (c := c) trivial
    rwa [context, context, hown] at hbalance

theorem node_rules : NodeRules (fun y z : Trace Node Call => NodeKept q fb y.1 z.1)
    (fun y z => NodeKept q fb y.1 z.1) (fun _ y => y.1.Sane) fun y => y.1.Sane where
  toHandlerRules := node_handlerRules
  peers h := h.peers
  create {x} peer _ := KeptOn.createContext x.1 peer
  onContext hp hc := node_onContext hp hc

/-! ## The operations -/

theorem node_silent {f : Node → Node} (hf : Silent x.1 (f x.1)) : NodeKeeps q fb x (Prog.modify f) :=
  keeps_silent node_callRules hf

theorem node_canSendRequest (peer : PeerId) : NodeKeeps q fb x (Prog.update (canSendRequest peer)) :=
  fun hI => canSendRequest_moves node_rules.toTableRules hI peer

theorem lawful_makeRequest (address : Option (List Multiaddress)) (id : RequestId) (body : Bytes) :
    Lawful (do
      Prog.modify (PeerContext.setOutboundAddress address)
      Prog.modify fun ctx => ctx.needToConnect.1
      PeerContext.enqueueRequest id body) := by
  intro p f y
  have hset := PeerContext.Silent.setOutboundAddress y.1 address
  refine PeerContext.ledger_modify_bind hset.feedbacks hset.reported ?_
  exact Keeps.modify_bind PeerContext.ledger_rely (fun _ => PeerContext.ledger_needToConnect)
    (PeerContext.ledger_op (.enqueueRequest id body))

theorem node_networkMakeRequest (peer : PeerId) (address : Option (List Multiaddress)) (id : RequestId)
    (body : Bytes) : NodeKeeps q fb x (networkMakeRequest peer address id body) := by
  refine Keeps.bind node_rely (node_canSendRequest peer) fun ok y _ => ?_
  refine Keeps.ite (fun _ => ?_) fun _ => Keeps.pure node_rely ()
  exact keeps_found node_rules peer false (lawful_makeRequest address id body)

theorem node_makeRequest (i : InstanceId) (peer : PeerId) (address : Option (List Multiaddress))
    (rootCid : CID) (selector : Bytes) (extensions : List Extension) :
    NodeKeeps q fb x (makeRequest i peer address rootCid selector extensions) := by
  have hreject (y : Trace Node Call) : NodeKeeps q fb y (Prog.modify (newRejectedRequest i)) :=
    node_silent (Silent.setLocal y.1 i _)
  refine Keeps.get (Keeps.ite (fun _ => hreject _) fun _ => ?_)
  refine Keeps.bind node_rely (node_canSendRequest peer) fun ok y _ => ?_
  refine Keeps.ite (fun _ => hreject _) fun _ => node_withLock i fun z => ?_
  refine Keeps.get (Keeps.ite (fun _ => hreject _) fun _ => ?_)
  have hnew : NodeKeeps q fb z (Prog.update (newRequest i rootCid selector extensions)) := fun _ =>
    KeptOn.of_silent (Silent.newRequest z.1 i rootCid selector extensions)
  refine Keeps.bind node_rely hnew fun made w _ => ?_
  cases made with
  | none => exact Keeps.pure node_rely ()
  | some request =>
    refine keeps_silent_bind node_callRules (Silent.setTracked w.1 i _) ?_
    exact Keeps.when node_rely fun _ => node_networkMakeRequest peer address _ _

theorem node_start (i : InstanceId) : NodeKeeps q fb x (start i) := by
  refine node_modify_bind rfl (fun h => h.networkStart i) (node_modify rfl fun h => ?_)
  exact h.setInstance fun _ => List.mem_append_right _ (List.mem_singleton_self i)

theorem node_closeAllPeers : NodeKeeps q fb x closeAllPeers := by
  intro hI
  refine (Keeps.get (node_modify_bind rfl (fun h => h.setNetwork ?_ rfl fun _ hi => h.registered hi) ?_) :
    NodeKeeps q fb x closeAllPeers) hI
  · intro peer c hp
    cases hp
  · refine Keeps.forM node_rely fun e he y hxy => ?_
    refine node_onContext (fun _ _ _ => PeerContext.ledger_close _) fun _ => ?_
    have hpeer := (OrdMap.find?_some_iff _ _ _).mpr he
    exact lt_of_lt_of_le (hI.peers e.1 e.2 hpeer) hxy.length

theorem node_doStop (i : InstanceId) : NodeKeeps q fb x (doStop i) := by
  refine Keeps.get (Keeps.ite (fun _ => ?_) fun _ => Keeps.pure node_rely ())
  let stopped := x.1.setInstance i { x.1.instances i with started := false }
  have hstopped : (stopped.instances i).started = false := by simp [stopped, setInstance]
  have hstop : NodeKeeps q fb (stopped, x.2) (networkStop i) := by
    refine Keeps.get (node_modify_bind rfl (fun h => ?_) (Keeps.when node_rely fun _ => node_closeAllPeers))
    exact h.setNetwork (fun _ _ hp => hp) h.unused fun j hj => h.registered_of_ne hstopped hj
  refine node_modify_bind rfl (fun h => h.setInstance Bool.false_ne_true.elim) ?_
  refine Keeps.bind node_rely hstop fun _ y _ => ?_
  refine keeps_silent_bind node_callRules (Silent.setTracked y.1 i _) ?_
  refine Keeps.bind node_rely (keeps_cancelActive node_callRules i) fun _ z _ => ?_
  exact keeps_cancelRejected node_callRules i

/-- A request is not found by its id, since nothing was entered. -/
theorem networkCancelRequest_of_unused (h : s.network.activeRequestsPerPeer = .empty) (id : RequestId)
    (body : Option Bytes) : networkCancelRequest id body s = .done () s := by
  unfold networkCancelRequest
  by_cases hs : s.network.started = true <;> simp [hs, h]

theorem node_unsubscribe (i : InstanceId) (ticket : RequestId) :
    NodeKeeps q fb x (unsubscribe i ticket) := by
  refine Keeps.get (keeps_silent_bind node_callRules (Silent.setLocal x.1 i _) fun hI => ?_)
  cases ((x.1.instances i).localRequests.unsubscribe ticket).2 with
  | none => exact KeptOn.refl _
  | some cancel =>
    have hdone := networkCancelRequest_of_unused hI.unused cancel.1 cancel.2
    simp only [hdone]
    exact KeptOn.refl _

theorem node_cleanupOldRequests (i : InstanceId) : NodeKeeps q fb x (cleanupOldRequests i) :=
  node_withLock i fun _ => Keeps.get (Keeps.forM node_rely fun e _ _ _ =>
    keeps_cleanupRequest node_callRules i _ e.1 fun _ => trivial)

theorem node_onPeer (peer : PeerId) {p : PeerContext.Action Unit} (hp : Lawful p) :
    NodeKeeps q fb x (onPeer peer p) :=
  keeps_found node_rules peer false hp

/-- One case for each operation. -/
theorem node_op (o : Op) : NodeKeeps q fb x (op o) := by
  cases o with
  | start i => exact node_start i
  | stop i => exact node_doStop i
  | makeRequest i peer address rootCid selector extensions => exact node_makeRequest i peer address _ _ _
  | unsubscribe i ticket => exact node_unsubscribe i ticket
  | getRequestState i rootCid =>
    exact Keeps.bind node_rely (node_withLock i fun y _ => KeptOn.refl y.1) fun _ _ _ =>
      Keeps.pure node_rely ()
  | getRequestInfo i rootCid =>
    exact Keeps.bind node_rely (node_withLock i fun y _ => KeptOn.refl y.1) fun _ _ _ =>
      Keeps.pure node_rely ()
  | tick now => exact node_modify rfl fun h => ⟨h.peers, h.unused, h.registered⟩
  | cleanupOldRequests i => exact node_cleanupOldRequests i
  | notifyRejected i => exact keeps_notifyRejected node_callRules i
  | streamAccepted peer stream => exact keeps_networkOnStreamAccepted node_rules peer stream
  | event c e => exact keeps_event node_rules c e
  | addBlockToResponse peer id cid data =>
    exact node_onPeer peer fun _ _ _ => PeerContext.ledger_op (.addBlockToResponse id cid data)
  | sendResponse peer id status extensions =>
    exact node_onPeer peer fun _ _ _ => PeerContext.ledger_op (.sendResponse id status extensions)
  | keepPeerAlive peer => exact node_onPeer peer fun _ _ _ => Keeps.pure PeerContext.ledger_rely ()

/-! ## Runs -/

/-- The ledgers from one point of a run on: within an operation some are open. -/
def Settled (q : RequestId → ResponseStatusCode → Bool) (fb : InstanceId) (s : Node)
    (stack : List Call) (y : Trace Node Call) : Prop :=
  y.1.Sane ∧ (stack = [] → NodeKept q fb s y.1)

theorem Settled.moved {s : Node} {stack : List Call} {y z : Trace Node Call}
    (h : Settled q fb s stack y) (hyz : NodeKept q fb y.1 z.1) : Settled q fb s stack z :=
  ⟨hyz.sane h.1, fun hst => (h.2 hst).trans hyz⟩

theorem settled_of_run (fb : InstanceId) {c₀ c : Config Node Call} (hidle : c₀.frames = []) (hs : c₀.state.Sane)
    {ms : List (Move Op)} (hr : Runs.run step c₀ ms = some c) :
    Settled q fb c₀.state c.pending (c.state, c.calls) := by
  have hstart : Sound (fun y z => NodeKept q fb y.1 z.1) (Settled q fb c₀.state) c₀ := by
    obtain ⟨s, fs, calls⟩ := c₀
    cases hidle
    exact ⟨⟨hs, fun _ => KeptOn.refl s⟩, .nil⟩
  have hsound := Sound.run (fun y => KeptOn.refl y.1) (fun _ _ _ h h' => h.trans h')
    (fun _ _ _ hy hyz => hy.moved hyz) (fun c o _ _ hV => ?_) hstart (Runs.everyStep_true _ _) hr
  · exact hsound.valid
  · have hcalls (d : Call) (y : Trace Node Call) (hy : y.1.Sane) :
        Settled q fb c₀.state (d :: c.pending) y :=
      ⟨hy, fun hst => absurd hst (List.cons_ne_nil d _)⟩
    have hkeeps : NodeKeeps q fb (c.state, c.calls) (op o) := node_op o
    exact (hkeeps.weaken hcalls).ends hV.1 hV fun _ _ _ hy hyz => hy.moved hyz

/-- The tables of the network, also while callbacks run. -/
theorem sane_of_run {ms : List (Move Op)} {c : Config Node Call}
    (hr : Runs.run step (Config.start initial) ms = some c) : c.state.Sane :=
  (settled_of_run (q := fun _ _ => false) 0 rfl Sane.initial hr).1

/-- Between the operations of the node every feedback of every context has been told of everything. -/
theorem told_of_run (q : RequestId → ResponseStatusCode → Bool) (fb : InstanceId) {ms : List (Move Op)}
    {c : Config Node Call} (hr : Runs.run step (Config.start initial) ms = some c)
    (hidle : c.frames = []) (ctx : ContextId) :
    told q fb (c.state.trace ctx).2 = due q fb (c.state.context ctx) := by
  have hpending : c.pending = [] := by rw [Config.pending, hidle, List.map_nil]
  have hbalance : told q fb (c.state.trace ctx).2 + due q fb (initial.context ctx) =
      told q fb (initial.trace ctx).2 + due q fb (c.state.context ctx) :=
    ((settled_of_run fb rfl Sane.initial hr).2 hpending).balance trivial
  have hinitial : initial.trace ctx = absent := trace_of_length_le (Nat.zero_le ctx)
  have htold : told q fb absent.2 = 0 := rfl
  have hdue : due q fb absent.1 = 0 := Nat.zero_mul _
  rw [context, hinitial, htold, hdue] at hbalance
  omega

/-! ## Who is told -/

/-- **An instance hears of a report exactly when it was registered when the context was made**, and
so was copied to its `graphsync_feedbacks_`: `c₀` is any earlier point at which the context is
there. -/
theorem told_iff_registered {pre post : List (Move Op)} {c₀ c : Config Node Call}
    (hpre : Runs.run step (Config.start initial) pre = some c₀) (hidle₀ : c₀.frames = [])
    (hpost : Runs.run step c₀ post = some c) (hidle : c.frames = []) {ctx : ContextId}
    (hctx : ctx < c₀.state.contexts.length) {id : RequestId} {status : ResponseStatusCode}
    (hreport : (id, status) ∈ (c.state.context ctx).reported) (i : InstanceId) :
    0 < told (fun r _ => r = id) i (c.state.trace ctx).2 ↔
      i ∈ (c₀.state.context ctx).graphsyncFeedbacks := by
  have hrun : Runs.run step (Config.start initial) (pre ++ post) = some c := by
    rw [Runs.run_append, hpre]
    exact hpost
  have hpending : c.pending = [] := by rw [Config.pending, hidle, List.map_nil]
  have hsame := ((settled_of_run (q := fun r _ => r = id) i hidle₀ (sane_of_run hpre) hpost).2
    hpending).feedbacks trivial hctx
  have hpos : 0 < (c.state.context ctx).reported.countP fun e => decide (e.1 = id) :=
    List.countP_pos_iff.mpr ⟨_, hreport, decide_eq_true rfl⟩
  rw [told_of_run _ i hrun hidle, due, ← hsame, Nat.mul_pos_iff_of_pos_left hpos, List.count_pos_iff]

/-- A CID that holds its one byte of content. -/
def inlineCid (b : UInt8) : CID := ⟨.v1, Multicodec.dagPb, ⟨0, [b], by simp [kMaxHashLength]⟩⟩

def answer (id : RequestId) (status : ResponseStatusCode) : Message := ⟨false, [], [⟨id, status, []⟩], []⟩

/-- The node after a run from the beginning. -/
def after (ms : List (Move Op)) : Config Node Call := Runs.last step (Config.start initial) ms

/-- Instance 0 starts, asks peer 9, and gets a stream. -/
def askingRun : List (Move Op) :=
  [.invoke (.start 0), .invoke (.makeRequest 0 9 none (inlineCid 1) [] []),
    .invoke (.event 0 (.streamConnected (some 5))), .invoke (.event 0 (.windowAdjusted 5 true))]

def answeredRun : List (Move Op) :=
  askingRun ++ [.invoke (.event 0 (.readerEvent 5 (some (answer 1 .notFound)))), .ret]

theorem told_asking_instance : 0 < told (fun r _ => r = 1) 0 ((after answeredRun).state.trace 0).2 := by
  have hpre : Runs.run step (Config.start initial) askingRun = some (after askingRun) :=
    Runs.run_last (by decide +kernel)
  have hpost : Runs.run step (Config.start initial) answeredRun = some (after answeredRun) :=
    Runs.run_last (by decide +kernel)
  rw [answeredRun, Runs.run_append, hpre] at hpost
  have hidle₀ : (after askingRun).frames = [] := List.isEmpty_iff.mp (by decide +kernel)
  have hidle : (after answeredRun).frames = [] := List.isEmpty_iff.mp (by decide +kernel)
  have hctx : 0 < (after askingRun).state.contexts.length := by decide +kernel
  have hreport : ((1 : RequestId), ResponseStatusCode.notFound) ∈
    ((after answeredRun).state.context 0).reported := by decide +kernel
  exact (told_iff_registered hpre hidle₀ hpost hidle hctx hreport 0).mpr (by decide +kernel)

/-- Instance 1 starts when the context of peer 9 is there, and asks through it. -/
def deafRun : List (Move Op) :=
  askingRun ++ [.invoke (.start 1), .invoke (.makeRequest 1 9 none (inlineCid 2) [] []),
    .invoke (.event 0 (.readerEvent 5 (some (answer 2 .notFound))))]

/-- The request went out and was answered, and the instance that asked is never told. -/
theorem deaf_instance :
    (Runs.run step (Config.start initial) deafRun).isSome = true ∧
      (after deafRun).frames.isEmpty = true ∧ ((after deafRun).state.instances 1).started = true ∧
      ((after deafRun).state.instances 1).localRequests.activeRequests.keys = [2] ∧
      ((after deafRun).state.context 0).requested = [1, 2] ∧
      ((after deafRun).state.context 0).reported = [(2, .notFound)] ∧
      told (fun r _ => r = 2) 1 ((after deafRun).state.trace 0).2 = 0 := by
  decide +kernel

/-! ## Cancelling -/

/-- **Cancelling a request never reaches its peer**: `active_requests_per_peer_` is always empty, so
the request stays in the table of its context and nothing is written to the endpoint. -/
theorem cancel_stays_local {ms : List (Move Op)} {c : Config Node Call}
    (hr : Runs.run step (Config.start initial) ms = some c) {i : InstanceId} {id : RequestId}
    (hpos : 0 < id)
    (hactive : (c.state.instances i).localRequests.activeRequests.contains id = true)
    {ctx : ContextId} (hlisted : (c.state.context ctx).localRequestIds.contains id = true) :
    ∃ t, unsubscribe i id c.state = .done () t ∧
      (t.instances i).localRequests.activeRequests.contains id = false ∧
      t.contexts = c.state.contexts ∧ (t.context ctx).localRequestIds.contains id = true := by
  let l := (c.state.instances i).localRequests
  have hdropped : l.unsubscribe id =
      ({ l with activeRequests := l.activeRequests.erase id, requestBuilder := .initial },
        some (id, (l.requestBuilder.addCancelRequest id).serialize)) := by
    rw [LocalRequests.unsubscribe, if_neg (not_lt_of_gt hpos), if_neg (by rw [hactive]; decide)]
  have hunused : (c.state.setLocal i (l.unsubscribe id).1).network.activeRequestsPerPeer = .empty :=
    (sane_of_run hr).unused
  refine ⟨c.state.setLocal i (l.unsubscribe id).1, ?_, ?_, rfl, hlisted⟩
  · have hcancel := networkCancelRequest_of_unused hunused id
      (l.requestBuilder.addCancelRequest id).serialize
    simp only [unsubscribe, Prog.bind_apply, Prog.get_apply, Prog.modify_apply, Res.bind_done]
    rw [hdropped] at hcancel ⊢
    exact hcancel
  · simp [setLocal, setInstance, hdropped, l, OrdMap.contains_erase]

theorem cancelled_in_vain :
    ∃ t, unsubscribe 0 1 (after askingRun).state = .done () t ∧
      (t.instances 0).localRequests.activeRequests.contains 1 = false ∧
      t.contexts = (after askingRun).state.contexts ∧
      (t.context 0).localRequestIds.contains 1 = true :=
  cancel_stays_local (Runs.run_last (by decide +kernel)) (by decide) (by decide +kernel)
    (by decide +kernel)

def cancellingRun : List (Move Op) := askingRun ++ [.invoke (.unsubscribe 0 1)]

/-- The request is active and listed by an open context that is connected. Once it is cancelled it is
still listed, and the queue of the endpoint is as it was. -/
theorem cancel_lost :
    ((after askingRun).state.instances 0).localRequests.activeRequests.contains 1 = true ∧
      ((after askingRun).state.context 0).localRequestIds.contains 1 = true ∧
      ((after askingRun).state.context 0).closed = false ∧
      ((after askingRun).state.context 0).requestsEndpoint = some (.connected 5) ∧
      (Runs.run step (Config.start initial) cancellingRun).isSome = true ∧
      ((after cancellingRun).state.instances 0).localRequests.activeRequests.contains 1 = false ∧
      ((after cancellingRun).state.context 0).localRequestIds.contains 1 = true ∧
      ((after cancellingRun).state.context 0).queues 5 = ((after askingRun).state.context 0).queues 5 := by
  decide +kernel

end
end IpfsLite.Graphsync.Node
