import IpfsLite.Graphsync.NodeLedger

/-! # Taking `requested_cids_mutex_` twice

`makeRequest` and `cleanupOldRequests` call out while they hold the mutex of their instance. Where a
mutex is held between two steps it is by a `cleanupOldRequests` whose callback is pending; and a
`makeRequest` calls nobody under the mutex as long as the context takes its request. -/
namespace IpfsLite.Graphsync
set_option autoImplicit false

open Reentrant

/-! ## What an `enqueueRequest` calls -/

namespace PeerContext

/-- Responses for the ids of a table, for the feedbacks of a list. -/
def CallsOnly (fbs : List InstanceId) (ids : OrdMap RequestId Unit) : Call → Prop
  | .onResponse fb id _ _ => fb ∈ fbs ∧ ids.contains id = true
  | .peerClosed _ => True
  | .onRemoteRequest _ _ | .onBlock _ _ _ _ => False

structure Within (fbs : List InstanceId) (ids : OrdMap RequestId Unit)
    (x : Trace PeerContext Call) : Prop where
  feedbacks : x.1.graphsyncFeedbacks = fbs
  listed {id : RequestId} : x.1.localRequestIds.contains id = true → ids.contains id = true

section
variable {fbs : List InstanceId} {ids : OrdMap RequestId Unit} {x : Trace PeerContext Call}

/-- Programs that make no other calls, when nobody uses the context meanwhile. -/
abbrev NarrowKeeps (fbs : List InstanceId) (ids : OrdMap RequestId Unit) (x : Trace PeerContext Call)
    {α : Type} (p : Action α) : Prop :=
  Keeps (fun y z => z = y) (fun y z => Within fbs ids y → Within fbs ids z)
    (fun c _ => CallsOnly fbs ids c) (Within fbs ids) x p

theorem narrow_rely : Rely (fun y z : Trace PeerContext Call => z = y)
    (fun y z => Within fbs ids y → Within fbs ids z) (Within fbs ids) where
  refl _ h := h
  trans h h' hx := h' (h hx)
  absorb h hx := h ▸ hx
  stable h h' := h' h

theorem narrow_call {c : Call} (hc : Within fbs ids x → CallsOnly fbs ids c) :
    NarrowKeeps fbs ids x (Prog.call c) :=
  Keeps.call narrow_rely fun hI => ⟨hc hI, fun h => ⟨h.feedbacks, h.listed⟩⟩

theorem narrow_notify {id : RequestId} (hid : ids.contains id = true) (status : ResponseStatusCode)
    (extensions : List Extension) : NarrowKeeps fbs ids x (notify id status extensions) := by
  refine Keeps.modify_bind narrow_rely (fun _ h => ⟨h.feedbacks, h.listed⟩) (Keeps.get fun hI => ?_)
  refine Keeps.forM narrow_rely (fun fb hfb y _ => narrow_call fun _ => ?_) hI
  exact ⟨hI.feedbacks ▸ hfb, hid⟩

theorem narrow_closeLocalRequests (status : ResponseStatusCode) :
    NarrowKeeps fbs ids x (closeLocalRequests status) := by
  intro hI
  refine (Keeps.get (Keeps.modify_bind narrow_rely (fun _ h => ⟨h.feedbacks, fun hid => ?_⟩) ?_) :
    NarrowKeeps fbs ids x (closeLocalRequests status)) hI
  · cases hid
  · refine Keeps.bind narrow_rely (Keeps.forM narrow_rely fun id hid y _ => ?_) fun _ y _ => ?_
    · exact narrow_notify (hI.listed ((OrdMap.mem_keys_iff _ id).mp hid)) status []
    · exact Keeps.modify fun _ h => ⟨h.feedbacks, h.listed⟩

theorem narrow_logic : Logic (fun x p => NarrowKeeps fbs ids x p)
    (fun y z => Within fbs ids y → Within fbs ids z)
    fun x t => Within fbs ids x → Within fbs ids x → Within fbs ids (t, x.2) := narrow_rely.logic

theorem narrow_removeStream (stream : StreamPtr) (status : ResponseStatusCode) :
    NarrowKeeps fbs ids x (removeStream stream status) := by
  have hdrop := Silent.dropRemoteRequests x.1 stream
  refine keeps_removeStream narrow_logic (fun _ _ h => ⟨hdrop.feedbacks.trans h.feedbacks, fun hid => ?_⟩)
    fun _ => narrow_closeLocalRequests status
  exact h.listed (hdrop.localIds ▸ hid)

theorem narrow_close (status : ResponseStatusCode) : NarrowKeeps fbs ids x (close status) :=
  keeps_close narrow_logic (fun _ _ h => ⟨h.feedbacks, h.listed⟩)
    (fun _ stream => narrow_removeStream stream status) (fun _ => narrow_closeLocalRequests status)
    (fun _ _ h => ⟨h.feedbacks, h.listed⟩) fun _ => narrow_call fun _ => trivial

theorem narrow_rules : WriteRules (fun x p => NarrowKeeps fbs ids x p)
    (fun y z => Within fbs ids y → Within fbs ids z)
    fun x t => Within fbs ids x → Within fbs ids x → Within fbs ids (t, x.2) where
  toLogic := narrow_logic
  plain h _ hw := ⟨h.feedbacks.trans hw.feedbacks, fun hid => hw.listed (h.localIds ▸ hid)⟩
  close _ := narrow_close _

/-- An open context calls for nothing but the ids that are in its table. -/
theorem narrow_enqueueRequest (hx : Within fbs ids x) (hopen : x.1.closed = false) (id : RequestId)
    (body : Bytes) :
    Meets (fun y z => z = y) (fun c _ => CallsOnly fbs ids c) (fun _ _ => True)
      (enqueueRequest id body x.1) x.2 := by
  have hnoted : Within fbs ids (noteRequest id x.1, x.2) := ⟨hx.feedbacks, hx.listed⟩
  refine Meets.modify (Meets.get (Meets.ite (fun hc => ?_) fun _ => ?_))
  · rw [noteRequest, hopen] at hc
    cases hc
  have hclose (status : ResponseStatusCode) := (narrow_close (x := (noteRequest id x.1, x.2)) status
    hnoted).mono fun _ _ _ => trivial
  cases hep : (noteRequest id x.1).requestsEndpoint with
  | none => exact hclose .internalError
  | some ep =>
    refine Meets.ite (fun _ => hclose .slowStream) fun _ => Meets.seq ?_
    exact (keeps_enqueue (x := (noteRequest id x.1, x.2)) narrow_rules hep body hnoted).mono
      fun _ _ _ => trivial

/-! ## A request through an open context -/

/-- What `Network::makeRequest` does to the context. -/
def submit (address : Option (List Multiaddress)) (id : RequestId) (body : Bytes) : Action Unit := do
  Prog.modify (setOutboundAddress address)
  Prog.modify fun ctx => ctx.needToConnect.1
  enqueueRequest id body

structure SameRequests (s t : PeerContext) : Prop where
  feedbacks : t.graphsyncFeedbacks = s.graphsyncFeedbacks
  localIds : t.localRequestIds = s.localRequestIds
  closed : t.closed = s.closed

theorem sameRequests_needToConnect (s : PeerContext) (address : Option (List Multiaddress)) :
    SameRequests s (s.setOutboundAddress address).needToConnect.1 := by
  have hset := Silent.setOutboundAddress s address
  have hconnect (t : PeerContext) : SameRequests t t.needToConnect.1 := by
    unfold needToConnect
    split
    · exact ⟨rfl, rfl, rfl⟩
    · split
      · exact ⟨rfl, rfl, rfl⟩
      · have hcreate := Plain.createMessageQueue t
        exact ⟨(hcreate _ _).feedbacks, (hcreate _ _).localIds, (hcreate _ _).closed⟩
  have h := hconnect (s.setOutboundAddress address)
  exact ⟨h.feedbacks.trans hset.feedbacks, h.localIds.trans hset.localIds, h.closed.trans hset.closed⟩

theorem takes_setOutboundAddress (s : PeerContext) (address : Option (List Multiaddress))
    (body : Bytes) :
    (s.setOutboundAddress address).needToConnect.1.takes body = s.needToConnect.1.takes body := by
  cases address with
  | none => rfl
  | some addresses =>
    cases hep : s.requestsEndpoint with
    | some ep => simp only [needToConnect, setOutboundAddress, hep, takes]
    | none =>
      simp only [needToConnect, setOutboundAddress, hep]
      rcases s.streams.entries with _ | ⟨e, es⟩
      · rfl
      · simp only [createMessageQueue]
        split <;> rfl

/-- A request that is taken calls nobody. -/
theorem submit_of_takes {s : PeerContext} {body : Bytes} (h : s.needToConnect.1.takes body = true)
    (address : Option (List Multiaddress)) (hopen : s.closed = false) (id : RequestId) :
    ∃ t, submit address id body s = .done () t := by
  rw [← takes_setOutboundAddress s address] at h
  have hclosed : (noteRequest id (s.setOutboundAddress address).needToConnect.1).closed = false :=
    (sameRequests_needToConnect s address).closed.trans hopen
  generalize hu : noteRequest id (s.setOutboundAddress address).needToConnect.1 = u at hclosed
  have htakes : u.takes body = true := by
    rw [← hu]
    exact h
  cases hep : u.requestsEndpoint with
  | none => simp [takes, hep] at htakes
  | some ep =>
    obtain ⟨hroom, t, ht, -⟩ := enqueue_of_takes hep htakes
    refine ⟨{ t with localRequestIds := t.localRequestIds.insert id () }, ?_⟩
    simp [submit, enqueueRequest, hu, hclosed, hep, hroom, ht]

/-- Otherwise it calls for what the context still has outstanding. -/
theorem narrow_submit (address : Option (List Multiaddress)) (hopen : x.1.closed = false)
    (id : RequestId) (body : Bytes) :
    Meets (fun y z => z = y) (fun c _ => CallsOnly x.1.graphsyncFeedbacks x.1.localRequestIds c)
      (fun _ _ => True) (submit address id body x.1) x.2 := by
  have hsame := sameRequests_needToConnect x.1 address
  refine Meets.modify (Meets.modify ?_)
  refine narrow_enqueueRequest (x := (_, x.2)) ⟨hsame.feedbacks, fun hid => ?_⟩
    (hsame.closed.trans hopen) id body
  rwa [← hsame.localIds]

end
end PeerContext

namespace Node

/-! ## When a mutex may be held -/

/-- A callback of `cleanupOldRequests` of `i` is pending. -/
def cleaning (i : InstanceId) (pending : List Call) : Bool :=
  pending.any fun
    | .progress j _ _ _ .cleanup => j = i
    | _ => false

structure Safe (s : Node) : Prop where
  sane : s.Sane
  deadlock : s.deadlock = false

/-- A mutex that is held is held by a clean-up that waits for its callback. -/
structure Guarded (pending : List Call) (s : Node) : Prop where
  safe : s.Safe
  held {i : InstanceId} : s.locked i = true → cleaning i pending = true

/-- A program as a whole takes no mutex along and leaves none behind. -/
structure LockKept (s t : Node) : Prop where
  locked : t.locked = s.locked
  safe : s.Safe → t.Safe

section
variable {s t u : Node} {x : Trace Node Call} {pending : List Call}

theorem LockKept.refl (s : Node) : LockKept s s := ⟨rfl, id⟩

theorem LockKept.trans (h : LockKept s t) (h' : LockKept t u) : LockKept s u :=
  ⟨h'.locked.trans h.locked, fun hs => h'.safe (h.safe hs)⟩

theorem LockKept.of_silent (h : Silent s t) : LockKept s t :=
  ⟨h.locked, fun hs => ⟨hs.sane.silent h, h.deadlock.trans hs.deadlock⟩⟩

theorem LockKept.of_sane (hl : t.locked = s.locked) (hd : t.deadlock = s.deadlock)
    (hs : s.Sane → t.Sane) : LockKept s t :=
  ⟨hl, fun h => ⟨hs h.sane, hd.trans h.deadlock⟩⟩

theorem LockKept.setTrace (s : Node) (c : ContextId) (tr : Trace PeerContext PeerContext.Call) :
    LockKept s (s.setTrace c tr) :=
  .of_sane rfl rfl fun h => h.setTrace c tr

theorem Guarded.kept (h : Guarded pending s) (hst : LockKept s t) : Guarded pending t :=
  ⟨hst.safe h.safe, fun hi => h.held (hst.locked ▸ hi)⟩

theorem Guarded.push (h : Guarded pending s) (c : Call) : Guarded (c :: pending) s :=
  ⟨h.safe, fun hi => by rw [cleaning, List.any_cons, ← cleaning, h.held hi, Bool.or_true]⟩

theorem Guarded.free (h : Guarded pending s) {i : InstanceId} (hi : cleaning i pending = false) :
    s.locked i = false := by
  rw [← Bool.not_eq_true]
  intro hl
  rw [h.held hl] at hi
  cases hi

/-- What programs begun with these calls pending do to the mutexes. -/
abbrev LockKeeps (pending : List Call) (x : Trace Node Call) {α : Type} (p : Action α) : Prop :=
  Keeps (fun y z => LockKept y.1 z.1) (fun y z => LockKept y.1 z.1)
    (fun d y => Guarded (d :: pending) y.1) (fun y => Guarded pending y.1) x p

theorem lock_rely : Rely (fun y z : Trace Node Call => LockKept y.1 z.1)
    (fun y z => LockKept y.1 z.1) fun y => Guarded pending y.1 where
  refl y := LockKept.refl y.1
  trans h h' := h.trans h'
  absorb h := h
  stable h h' := h.kept h'

theorem lock_callRules : CallRules (fun _ => True) (fun y z : Trace Node Call => LockKept y.1 z.1)
    (fun y z => LockKept y.1 z.1) (fun d y => Guarded (d :: pending) y.1)
    fun y => Guarded pending y.1 where
  rely := lock_rely
  silent := .of_silent
  call {_ c} _ := Keeps.call lock_rely fun hI => ⟨hI.push c, LockKept.refl _⟩

theorem lock_tableRules : TableRules (fun y z : Trace Node Call => LockKept y.1 z.1)
    (fun y z => LockKept y.1 z.1) fun y => Guarded pending y.1 where
  rely := lock_rely
  silent := .of_silent
  peers h := h.safe.sane.peers
  create peer _ := .of_sane rfl rfl fun h => h.createContext peer

theorem lock_modify {f : Node → Node} (hf : LockKept x.1 (f x.1)) : LockKeeps pending x (Prog.modify f) :=
  Keeps.modify fun _ => hf

/-! ## Critical sections -/

/-- The state inside a critical section. -/
def acquired (i : InstanceId) (s : Node) : Node :=
  { s.setLocked i true with deadlock := s.deadlock || s.locked i }

theorem Safe.acquired {i : InstanceId} (h : s.Safe) (hfree : s.locked i = false) :
    (acquired i s).Safe := by
  refine ⟨⟨h.sane.peers, h.sane.unused, h.sane.registered⟩, ?_⟩
  rw [Node.acquired, hfree, Bool.or_false]
  exact h.deadlock

/-- A section that is entered with the mutex free and that as a whole leaves the mutexes alone. -/
theorem meets_withLock {V : Call → Trace Node Call → Prop} {i : InstanceId} {α : Type} {p : Action α}
    (hfree : x.1.locked i = false)
    (hp : Meets (fun y z => LockKept y.1 z.1) V (fun _ z => LockKept (acquired i x.1) z.1)
      (p (acquired i x.1)) x.2) :
    Meets (fun y z => LockKept y.1 z.1) V (fun _ z => LockKept x.1 z.1) (withLock i p x.1) x.2 := by
  refine Meets.modify (Meets.seq (hp.mono fun a y hy => ?_))
  have hleft : LockKept x.1 (y.1.setLocked i false) := by
    refine ⟨funext fun j => ?_, fun hs => ?_⟩
    · show (if j = i then false else y.1.locked j) = x.1.locked j
      rw [hy.locked]
      by_cases hj : j = i
      · rw [if_pos hj, hj, hfree]
      · rw [if_neg hj]
        exact if_neg hj
    · have hleft := hy.safe (hs.acquired hfree)
      exact ⟨⟨hleft.sane.peers, hleft.sane.unused, hleft.sane.registered⟩, hleft.deadlock⟩
  exact hleft

theorem lock_update {i : InstanceId} (hi : cleaning i pending = false) {α : Type} {f : Node → Node × α}
    (hf : ∀ s, Silent s (f s).1) : LockKeeps pending x (withLock i (Prog.update f)) := fun hI =>
  meets_withLock (hI.free hi) (LockKept.of_silent (hf _))

/-- At top level no mutex is held. -/
theorem lock_handlerRules : HandlerRules (fun y z : Trace Node Call => LockKept y.1 z.1)
    (fun y z => LockKept y.1 z.1) (fun d y => Guarded [d] y.1) fun y => Guarded [] y.1 where
  toCallRules := lock_callRules
  critical _ _ _ hf := lock_update rfl hf

theorem lock_onContext {c : ContextId} {α : Type} {p : PeerContext.Action α} :
    LockKeeps [] x (onContext c p) := by
  intro hI
  refine Meets.embed (R := fun _ _ => True) (V := fun _ _ => True) (Q := fun _ _ => True)
    (fun y : Trace Node Call => LockKept x.1 y.1) (fun d tr y hy _ => ?_)
    (fun _ tr y hy _ => hy.trans (.setTrace y.1 c tr)) (p (x.1.context c)) x (LockKept.refl x.1)
    (Meets.anything _ _)
  have hput := hy.trans (.setTrace y.1 c tr)
  have hhandle : LockKeeps [] (y.1.setTrace c tr, y.2) (handle c d) := keeps_handle lock_handlerRules c d
  exact (hhandle (hI.kept hput)).mono fun _ z hz => ⟨hput.trans hz, trivial⟩

theorem lock_rules : NodeRules (fun y z : Trace Node Call => LockKept y.1 z.1)
    (fun y z => LockKept y.1 z.1) (fun d y => Guarded [d] y.1) fun y => Guarded [] y.1 where
  toHandlerRules := lock_handlerRules
  peers := lock_tableRules.peers
  create := lock_tableRules.create
  onContext _ _ := lock_onContext

/-- The state in the loop of a clean-up, which calls while it holds the mutex. -/
structure Cleaning (i : InstanceId) (s : Node) : Prop where
  safe : s.Safe
  only {j : InstanceId} : s.locked j = true → j = i

theorem cleaning_callRules (i : InstanceId) : CallRules (fun d => cleaning i [d] = true)
    (fun y z : Trace Node Call => LockKept y.1 z.1) (fun y z => LockKept y.1 z.1)
    (fun d y => Guarded [d] y.1) fun y => Cleaning i y.1 where
  rely := {
    refl := fun y => LockKept.refl y.1
    trans := fun h h' => h.trans h'
    absorb := fun h => h
    stable := fun h h' => ⟨h'.safe h.safe, fun hj => h.only (h'.locked ▸ hj)⟩ }
  silent := .of_silent
  call hc hI := ⟨⟨hI.safe, fun hj => hI.only hj ▸ hc⟩, fun _ hy => hy⟩

theorem lock_cleanupOldRequests (i : InstanceId) : LockKeeps [] x (cleanupOldRequests i) := by
  intro hI
  have hfree := hI.free (i := i) rfl
  have hin : Cleaning i (acquired i x.1) := by
    refine ⟨hI.safe.acquired hfree, fun {j} hj => ?_⟩
    by_contra hne
    have hheld : x.1.locked j = true := by simpa [acquired, setLocked, hne] using hj
    rw [hI.free rfl] at hheld
    cases hheld
  refine meets_withLock hfree (Meets.get ?_)
  exact Keeps.forM (cleaning_callRules i).rely (x := (acquired i x.1, x.2))
    (fun e _ _ _ => keeps_cleanupRequest (cleaning_callRules i) i _ e.1 fun _ => by simp [cleaning]) hin

/-! ## Stopping -/

def NoneStarted (s : Node) : Prop := ∀ i, (s.instances i).started = false

theorem NoneStarted.silent (h : s.NoneStarted) (hst : Silent s t) : t.NoneStarted := fun i =>
  (hst.started i).trans (h i)

/-- An instance that is not started makes nothing of what a context calls. -/
theorem handle_of_noneStarted (h : s.NoneStarted) (c : ContextId) (d : PeerContext.Call) :
    ∃ t, handle c d s = .done () t ∧ Silent s t := by
  cases d with
  | onResponse i id status extensions =>
    exact ⟨s, by simp [handle, onResponse, h i], Silent.refl s⟩
  | onRemoteRequest i request => exact ⟨s, rfl, Silent.refl s⟩
  | onBlock i rootCid cid data => exact ⟨s, by simp [handle, onBlock, h i], Silent.refl s⟩
  | peerClosed status => exact ⟨_, rfl, Silent.peerClosed s _⟩

theorem stopped_onContext {V : Call → Trace Node Call → Prop} (h : x.1.NoneStarted) {c : ContextId}
    {α : Type} (p : PeerContext.Action α) :
    Meets (fun y z => LockKept y.1 z.1) V (fun _ z => LockKept x.1 z.1 ∧ z.1.NoneStarted)
      (onContext c p x.1) x.2 := by
  refine Meets.embed (R := fun _ _ => True) (V := fun _ _ => True) (Q := fun _ _ => True)
    (fun y : Trace Node Call => LockKept x.1 y.1 ∧ y.1.NoneStarted) (fun d tr y hy _ => ?_)
    (fun _ tr y hy _ => ⟨hy.1.trans (.setTrace y.1 c tr), hy.2⟩) (p (x.1.context c)) x
    ⟨LockKept.refl x.1, h⟩ (Meets.anything _ _)
  have hput := hy.1.trans (.setTrace y.1 c tr)
  have hnone : (y.1.setTrace c tr).NoneStarted := hy.2
  obtain ⟨t, ht, hsilent⟩ := handle_of_noneStarted hnone c d
  rw [ht]
  exact ⟨⟨hput.trans (.of_silent hsilent), hnone.silent hsilent⟩, trivial⟩

theorem stopped_closeAllPeers {V : Call → Trace Node Call → Prop} (h : x.1.NoneStarted) :
    Meets (fun y z => LockKept y.1 z.1) V (fun _ z => LockKept x.1 z.1) (closeAllPeers x.1) x.2 := by
  have hcleared : LockKept x.1 (x.1.setNetwork
      { x.1.network with peers := .empty, activeRequestsPerPeer := .empty }) :=
    .of_sane rfl rfl fun hs => hs.setNetwork (fun _ _ hp => by cases hp) rfl fun _ hi => hs.registered hi
  refine Meets.get (Meets.modify ?_)
  refine Meets.forM (I := fun _ y => LockKept x.1 y.1 ∧ y.1.NoneStarted) (fun e es y hy => ?_)
    (fun _ hy => hy.1) _ (_, x.2) ⟨hcleared, h⟩
  exact (stopped_onContext hy.2 _).mono fun _ z hz => ⟨hy.1.trans hz.1, hz.2⟩

/-- The peers are closed only when no instance is left to be called. -/
theorem lock_networkStop {i : InstanceId} (hi : (x.1.instances i).started = false) :
    LockKeeps pending x (networkStop i) := by
  intro hI
  let left := x.1.network.feedbacks.filter fun j => j ≠ i
  let off : Node := x.1.setNetwork { x.1.network with
    feedbacks := left
    started := x.1.network.started && !left.isEmpty }
  have hoff : LockKept x.1 off := .of_sane rfl rfl fun hs =>
    hs.setNetwork (fun _ _ hp => hp) hs.unused fun j hj => hs.registered_of_ne hi hj
  refine Meets.get (Meets.modify (Meets.ite (fun hnil => ?_) fun _ => hoff))
  have hnone : off.NoneStarted := fun j => by
    rw [← Bool.not_eq_true]
    intro hj
    have hmem : j ∈ left := hI.safe.sane.registered_of_ne hi hj
    rw [show left = [] from hnil] at hmem
    cases hmem
  exact (stopped_closeAllPeers (x := (off, x.2)) hnone).mono fun _ z hz => hoff.trans hz

theorem lock_doStop (i : InstanceId) : LockKeeps pending x (doStop i) := by
  refine Keeps.get (Keeps.ite (fun _ => ?_) fun _ => Keeps.pure lock_rely ())
  have hstopped : LockKept x.1 (x.1.setInstance i { x.1.instances i with started := false }) :=
    .of_sane rfl rfl fun h => h.setInstance Bool.false_ne_true.elim
  refine Keeps.modify_bind lock_rely (fun _ => hstopped) ?_
  refine Keeps.bind lock_rely (lock_networkStop (by simp [setInstance])) fun _ y _ => ?_
  refine keeps_silent_bind lock_callRules (Silent.setTracked y.1 i _) ?_
  refine Keeps.bind lock_rely (keeps_cancelActive lock_callRules i) fun _ z _ => ?_
  exact keeps_cancelRejected lock_callRules i

theorem lock_start (i : InstanceId) : LockKeeps pending x (start i) := by
  refine Keeps.modify_bind lock_rely (fun _ => .of_sane rfl rfl fun h => h.networkStart i) ?_
  refine lock_modify (.of_sane rfl rfl fun h => h.setInstance fun _ => ?_)
  exact List.mem_append_right _ (List.mem_singleton_self i)

theorem lock_unsubscribe (i : InstanceId) (ticket : RequestId) :
    LockKeeps pending x (unsubscribe i ticket) := by
  refine Keeps.get (keeps_silent_bind lock_callRules (Silent.setLocal x.1 i _) fun hI => ?_)
  cases ((x.1.instances i).localRequests.unsubscribe ticket).2 with
  | none => exact LockKept.refl _
  | some cancel =>
    have hdone := networkCancelRequest_of_unused hI.safe.sane.unused cancel.1 cancel.2
    simp only [hdone]
    exact LockKept.refl _

/-! ## Asking -/

theorem getState_isClosed (s : PeerContext) : s.getState = .isClosed ↔ s.closed = true := by
  unfold PeerContext.getState
  cases hc : s.closed with
  | true => simp
  | false =>
    simp only [Bool.false_eq_true, if_false]
    split
    · simp
    · split <;> simp

/-- An open context of the peer is at hand: it was there before, or has no requests. -/
structure Opened (peer : PeerId) (c : ContextId) (s t : Node) : Prop where
  instances : t.instances = s.instances
  generator : t.generator = s.generator
  started : t.network.started = true
  found : t.network.peers.find? peer = some c
  isOpen : (t.context c).closed = false
  origin : (s.network.peers.find? peer = some c ∧ t.context c = s.context c) ∨
    (t.context c).localRequestIds = .empty

theorem opened_createContext (hs : s.network.started = true) (peer : PeerId) :
    Opened peer s.contexts.length s (s.createContext peer).1 := by
  have hnew : (s.createContext peer).1.context s.contexts.length =
      .create peer s.network.feedbacks ⟨fun _ => false, s.now⟩ := by
    rw [context, trace_createContext_new]
  refine ⟨rfl, rfl, hs, ?_, ?_, .inr ?_⟩
  · simp [createContext, OrdMap.find?_insert]
  · rw [hnew]
    rfl
  · rw [hnew]
    rfl

theorem opened_findContext (hs : s.network.started = true) (peer : PeerId) :
    ∃ c t, s.findContext peer true = (t, some c) ∧ Opened peer c s t := by
  unfold findContext
  rw [if_neg (by rw [hs]; decide)]
  cases hp : s.network.peers.find? peer with
  | none => exact ⟨_, _, rfl, opened_createContext hs peer⟩
  | some c =>
    by_cases hc : (s.context c).getState = .isClosed
    · simp only [if_pos hc]
      have hnew := opened_createContext (s := s.peerClosed peer) hs peer
      have hgone : (s.peerClosed peer).network.peers.find? peer = none := by
        simp [peerClosed, setNetwork, OrdMap.find?_erase]
      refine ⟨_, _, rfl, hnew.instances, hnew.generator, hnew.started, hnew.found, hnew.isOpen, .inr ?_⟩
      exact hnew.origin.resolve_left fun h => by simp [hgone] at h
    · simp only [if_neg hc]
      rw [getState_isClosed, Bool.not_eq_true] at hc
      exact ⟨c, s, rfl, rfl, rfl, hs, hp, hc, .inl ⟨hp, rfl⟩⟩

/-- Asked for again the context is found, and nothing changes. -/
theorem findContext_again {peer : PeerId} {c : ContextId} (hs : s.network.started = true)
    (hp : s.network.peers.find? peer = some c) (hc : (s.context c).closed = false)
    (createIfNotFound : Bool) : s.findContext peer createIfNotFound = (s, some c) := by
  have hstate : ¬(s.context c).getState = .isClosed := by
    rw [getState_isClosed, hc]
    decide
  unfold findContext
  rw [if_neg (by rw [hs]; decide), hp]
  simp only [if_neg hstate]

theorem canSendRequest_again {peer : PeerId} {c : ContextId} (hs : s.network.started = true)
    (hp : s.network.peers.find? peer = some c) (hc : (s.context c).closed = false) :
    s.canSendRequest peer = (s, true) := by
  have hstate : ¬(s.context c).getState = .isClosed := by
    rw [getState_isClosed, hc]
    decide
  unfold canSendRequest
  rw [findContext_again hs hp hc]
  simp only [if_neg hstate]

theorem canSendRequest_cases (s : Node) (peer : PeerId) :
    (∃ t, s.canSendRequest peer = (t, false)) ∨
      ∃ c t, s.canSendRequest peer = (t, true) ∧ Opened peer c s t := by
  by_cases hs : s.network.started = true
  · obtain ⟨c, t, hfind, hopened⟩ := opened_findContext hs peer
    refine .inr ⟨c, t, ?_, hopened⟩
    have hstate : ¬(t.context c).getState = .isClosed := by
      rw [getState_isClosed, hopened.isOpen]
      decide
    unfold canSendRequest
    rw [hfind]
    simp only [if_neg hstate]
  · refine .inl ⟨s, ?_⟩
    have hfind : s.findContext peer true = (s, none) := if_pos (Bool.not_eq_true _ ▸ hs)
    unfold canSendRequest
    rw [hfind]

theorem networkMakeRequest_of_open {peer : PeerId} {c : ContextId} (hs : s.network.started = true)
    (hp : s.network.peers.find? peer = some c) (hc : (s.context c).closed = false)
    (address : Option (List Multiaddress)) (id : RequestId) (body : Bytes) :
    networkMakeRequest peer address id body s = onContext c (PeerContext.submit address id body) s := by
  unfold networkMakeRequest
  simp only [Prog.bind_apply, Prog.update, canSendRequest_again hs hp hc, findContext_again hs hp hc,
    Res.bind_done, if_true]
  rfl

/-- What is outstanding in the context, if it were answered now, would neither reach the user nor
take a mutex that is held while `i` holds its own. -/
def harmless (pending : List Call) (i : InstanceId) (c : ContextId) (s : Node) : Bool :=
  (s.context c).localRequestIds.keys.all fun id => (s.context c).graphsyncFeedbacks.all fun j =>
    !(s.instances j).started ||
      !(s.instances j).localRequests.activeRequests.contains id &&
        (((s.instances j).localRequests.getRequestRootCid id).isNone || j ≠ i && !cleaning j pending)

/-- The same for a node whose mutexes are known. -/
def Harmless (ctx : PeerContext) (s : Node) : Prop :=
  ∀ id, ctx.localRequestIds.contains id = true → ∀ j ∈ ctx.graphsyncFeedbacks,
    (s.instances j).started = true →
      (s.instances j).localRequests.activeRequests.contains id = false ∧
        ((s.instances j).localRequests.getRequestRootCid id = none ∨ s.locked j = false)

/-- Only what is tracked changes, and the network's peers. -/
structure Unseen (s t : Node) : Prop extends LockKept s t where
  contexts : t.contexts = s.contexts
  started (i : InstanceId) : (t.instances i).started = (s.instances i).started
  requests (i : InstanceId) : (t.instances i).localRequests = (s.instances i).localRequests

theorem Unseen.refl (s : Node) : Unseen s s := ⟨LockKept.refl s, rfl, fun _ => rfl, fun _ => rfl⟩

theorem Unseen.trans (h : Unseen s t) (h' : Unseen t u) : Unseen s u :=
  ⟨h.toLockKept.trans h'.toLockKept, h'.contexts.trans h.contexts,
    fun i => (h'.started i).trans (h.started i), fun i => (h'.requests i).trans (h.requests i)⟩

theorem Harmless.unseen {ctx : PeerContext} (h : Harmless ctx s) (hst : Unseen s t) :
    Harmless ctx t := by
  intro id hid j hj hstarted
  rw [hst.started] at hstarted
  rw [hst.requests, hst.locked]
  exact h id hid j hj hstarted

theorem localOnResponse_of_inactive {i : InstanceId} {id : RequestId}
    (h : (s.instances i).localRequests.activeRequests.contains id = false) (status : ResponseStatusCode)
    (extensions : List Extension) (origin : Origin) :
    localOnResponse i id status extensions origin s =
      .done () (s.setLocal i (s.instances i).localRequests) := by
  simp [localOnResponse, LocalRequests.onResponse, h, Prog.when]

theorem unseen_setLocal (s : Node) (i : InstanceId) :
    Unseen s (s.setLocal i (s.instances i).localRequests) := by
  refine ⟨.of_silent (Silent.setLocal s i _), rfl, (Silent.setLocal s i _).started, fun j => ?_⟩
  by_cases hj : j = i
  · subst hj
    simp [setLocal, setInstance]
  · simp [setLocal, setInstance, hj]

theorem unseen_withLock {i : InstanceId} (hfree : s.locked i = false) (rootCid : CID)
    (f : RequestTrackingInfo → RequestTrackingInfo) :
    ∃ t, withLock i (Prog.modify (modifyTracked i rootCid f)) s = .done () t ∧ Unseen s t := by
  have hkept := meets_withLock (V := fun _ _ => True) (x := (s, []))
    (p := Prog.modify (modifyTracked i rootCid f)) hfree
    (LockKept.of_silent (Silent.modifyTracked (acquired i s) i rootCid f))
  refine ⟨_, rfl, hkept, rfl, fun j => ?_, fun j => ?_⟩
  · exact (Silent.modifyTracked (acquired i s) i rootCid f).started j
  · by_cases hj : j = i
    · subst hj
      simp [setLocked, modifyTracked, setTracked, setInstance]
    · simp [setLocked, modifyTracked, setTracked, setInstance, hj]

/-- A harmless context is answered without a call. -/
theorem handle_of_harmless {ctx : PeerContext} (h : Harmless ctx s) (c : ContextId)
    {d : PeerContext.Call} (hd : PeerContext.CallsOnly ctx.graphsyncFeedbacks ctx.localRequestIds d) :
    ∃ t, handle c d s = .done () t ∧ Unseen s t := by
  cases d with
  | onRemoteRequest i request => exact hd.elim
  | onBlock i rootCid cid data => exact hd.elim
  | peerClosed status =>
    exact ⟨_, rfl, .of_silent (Silent.peerClosed s _), rfl, fun _ => rfl, fun _ => rfl⟩
  | onResponse i id status extensions =>
    cases hstarted : (s.instances i).started with
    | false => exact ⟨s, by simp [handle, onResponse, hstarted], Unseen.refl s⟩
    | true =>
      obtain ⟨hinactive, hroot⟩ := h id hd.2 i hd.1 hstarted
      cases hcid : (s.instances i).localRequests.getRequestRootCid id with
      | none =>
        refine ⟨_, ?_, unseen_setLocal s i⟩
        simp [handle, onResponse, hstarted, hcid, localOnResponse_of_inactive hinactive]
      | some rootCid =>
        have hfree : s.locked i = false := hroot.resolve_left (by rw [hcid]; exact Option.some_ne_none _)
        obtain ⟨t, ht, hst⟩ := unseen_withLock hfree rootCid (trackResponse s.now status)
        have hinactive' : (t.instances i).localRequests.activeRequests.contains id = false := by
          rw [hst.requests]
          exact hinactive
        refine ⟨_, ?_, hst.trans (unseen_setLocal t i)⟩
        simp [handle, onResponse, hstarted, hcid, ht, localOnResponse_of_inactive hinactive']

/-- Handing the request to an open context, under the mutex. -/
theorem lock_submit {V : Call → Trace Node Call → Prop} {c : ContextId} {id : RequestId} {body : Bytes}
    (address : Option (List Multiaddress)) (hc : c < x.1.contexts.length)
    (hopen : (x.1.context c).closed = false)
    (h : (x.1.context c).needToConnect.1.takes body = true ∨ Harmless (x.1.context c) x.1) :
    Meets (fun y z => LockKept y.1 z.1) V (fun _ z => LockKept x.1 z.1)
      (onContext c (PeerContext.submit address id body) x.1) x.2 := by
  rcases h with htakes | hharmless
  · obtain ⟨ctx, hctx⟩ := PeerContext.submit_of_takes htakes address hopen id
    rw [onContext, hctx]
    exact .setTrace x.1 c _
  · refine Meets.embed (R := fun y z => z = y) (Q := fun _ _ => True)
      (fun y : Trace Node Call => LockKept x.1 y.1 ∧ Harmless (x.1.context c) y.1 ∧
        c < y.1.contexts.length) (fun d tr y hy hd => ?_)
      (fun _ tr y hy _ => hy.1.trans (.setTrace y.1 c tr)) _ x ⟨LockKept.refl x.1, hharmless, hc⟩
      (PeerContext.narrow_submit (x := x.1.trace c) address hopen id body)
    have hput : Harmless (x.1.context c) (y.1.setTrace c tr) := hy.2.1
    obtain ⟨t, ht, hst⟩ := handle_of_harmless hput c hd
    rw [ht]
    refine ⟨⟨(hy.1.trans (.setTrace y.1 c tr)).trans hst.toLockKept, hput.unseen hst, ?_⟩, ?_⟩
    · rw [hst.contexts, length_setTrace]
      exact hy.2.2
    · rw [trace, hst.contexts]
      exact trace_setTrace hy.2.2 tr

theorem Harmless.of_check {i : InstanceId} {c : ContextId} (h : harmless pending i c s = true)
    (hctx : t.context c = s.context c)
    (hstarted : ∀ j, (t.instances j).started = (s.instances j).started)
    (hrequests : ∀ j, (t.instances j).localRequests = (s.instances j).localRequests)
    (hfree : ∀ j, j ≠ i → cleaning j pending = false → t.locked j = false) :
    Harmless (t.context c) t := by
  intro id hid j hj hon
  rw [hctx] at hid hj
  rw [hstarted] at hon
  have hkey : id ∈ (s.context c).localRequestIds.keys := (OrdMap.mem_keys_iff _ id).mpr hid
  have hcheck := List.all_eq_true.mp (List.all_eq_true.mp h id hkey) j hj
  simp only [hon, Bool.not_true, Bool.false_or, Bool.and_eq_true, Bool.not_eq_true', Bool.or_eq_true,
    Option.isNone_iff_eq_none, decide_eq_true_eq] at hcheck
  rw [hrequests]
  exact ⟨hcheck.1, hcheck.2.imp_right fun hj => hfree j hj.1 hj.2⟩

/-! ## Orderly steps -/

/-- The context of the peer, if it is open, takes the request or has nothing outstanding that
matters. -/
def submits (pending : List Call) (i : InstanceId) (peer : PeerId) (request : LocalRequests.NewRequest)
    (s : Node) : Bool :=
  request.requestId ≤ 0 || (s.network.peers.find? peer).all fun c =>
    (s.context c).closed || (s.context c).needToConnect.1.takes request.body || harmless pending i c s

/-- An operation that takes the mutex of an instance is not started from a callback of that
instance's clean-up; and a request that `makeRequest` makes is taken by the context. -/
def orderly (pending : List Call) (s : Node) : Op → Bool
  | .makeRequest i peer _ rootCid selector extensions =>
    !(s.instances i).started || !cleaning i pending &&
      (s.isInProgress i rootCid ||
        (s.newRequest i rootCid selector extensions).2.all fun request =>
          submits pending i peer request (s.newRequest i rootCid selector extensions).1)
  | .getRequestState i _ | .getRequestInfo i _ => !cleaning i pending
  | _ => true

theorem newRequest_congr {i : InstanceId} (hi : t.instances = s.instances)
    (hg : t.generator = s.generator) (rootCid : CID) (selector : Bytes) (extensions : List Extension) :
    (t.newRequest i rootCid selector extensions).2 = (s.newRequest i rootCid selector extensions).2 ∧
      (t.newRequest i rootCid selector extensions).1.instances =
        (s.newRequest i rootCid selector extensions).1.instances := by
  simp only [newRequest, setLocal, setInstance, hi, hg, and_self]

/-- The part of `makeRequest` after the request has been made, under the mutex. -/
theorem lock_request {i : InstanceId} {peer : PeerId} {c : ContextId} {made : Node}
    {request : LocalRequests.NewRequest} (address : Option (List Multiaddress)) (rootCid : CID)
    (hopened : Opened peer c s t) (hguarded : Guarded pending t)
    (hmade : Silent (acquired i t) x.1) (hnetwork : x.1.network = t.network)
    (hold : made.contexts = s.contexts ∧ made.network = s.network)
    (hinstances : x.1.instances = made.instances)
    (ho : submits pending i peer request made = true) :
    Meets (fun y z => LockKept y.1 z.1) (fun d y => Guarded (d :: pending) y.1)
      (fun _ z => LockKept x.1 z.1)
      ((do
        Prog.modify (trackRequest i rootCid request.requestId)
        Prog.when (0 < request.requestId)
          (networkMakeRequest peer address request.requestId request.body) : Action Unit) x.1) x.2 := by
  let w := x.1.trackRequest i rootCid request.requestId
  have htrack : Silent x.1 w := Silent.setTracked x.1 i _
  have hcontexts : w.contexts = t.contexts := hmade.contexts
  have hctx : w.context c = t.context c := by rw [context, context, trace, trace, hcontexts]
  have hopen : (w.context c).closed = false := hctx ▸ hopened.isOpen
  have hfound : w.network.peers.find? peer = some c := by
    rw [show w.network = t.network from hnetwork]
    exact hopened.found
  have hstarted : w.network.started = true := by
    rw [show w.network = t.network from hnetwork]
    exact hopened.started
  refine Meets.modify (Meets.ite (fun hpos => ?_) fun _ => LockKept.of_silent htrack)
  rw [networkMakeRequest_of_open hstarted hfound hopen]
  refine (lock_submit (x := (w, x.2)) address ?_ hopen ?_).mono fun _ z hz =>
    (LockKept.of_silent htrack).trans hz
  · rw [show (w, x.2).1.contexts = t.contexts from hcontexts]
    exact hguarded.safe.sane.peers peer c hopened.found
  · rcases hopened.origin with ⟨hpeer, hsame⟩ | hempty
    · have hmadectx : made.context c = s.context c := by rw [context, context, trace, trace, hold.1]
      have hcheck := ho
      simp only [submits, hold.2, hpeer, Option.all_some, Bool.or_eq_true, decide_eq_true_eq] at hcheck
      rcases hcheck with hneg | (hclosed | htakes) | hharmless
      · exact absurd hpos (not_lt_of_ge hneg)
      · rw [hmadectx, ← hsame, hopened.isOpen] at hclosed
        cases hclosed
      · refine .inl ?_
        rwa [hmadectx, ← hsame, ← hctx] at htakes
      · refine .inr (Harmless.of_check hharmless (hctx.trans (hsame.trans hmadectx.symm)) ?_ ?_ ?_)
        · intro j
          rw [← hinstances]
          exact htrack.started j
        · intro j
          rw [← hinstances]
          by_cases hj : j = i
          · subst hj
            simp [w, trackRequest, setTracked, setInstance]
          · simp [w, trackRequest, setTracked, setInstance, hj]
        · intro j hj hcleaning
          have hlocked : w.locked = (acquired i t).locked := hmade.locked
          rw [show (w, x.2).1.locked = (acquired i t).locked from hlocked]
          simp only [acquired, setLocked, if_neg hj]
          exact hguarded.free hcleaning
    · refine .inr fun id hid => ?_
      rw [show (w, x.2).1.context c = t.context c from hctx, hempty, OrdMap.contains_empty] at hid
      cases hid

theorem lock_makeRequest {i : InstanceId} {peer : PeerId} {address : Option (List Multiaddress)}
    {rootCid : CID} {selector : Bytes} {extensions : List Extension}
    (ho : orderly pending x.1 (.makeRequest i peer address rootCid selector extensions) = true) :
    LockKeeps pending x (makeRequest i peer address rootCid selector extensions) := by
  intro hI
  have hreject (s : Node) : LockKept s (newRejectedRequest i s) := .of_silent (Silent.setLocal s i _)
  refine Meets.get (Meets.ite (fun _ => hreject x.1) fun hon => ?_)
  have hmove : LockKept x.1 (x.1.canSendRequest peer).1 := canSendRequest_moves lock_tableRules hI peer
  refine Meets.seq ?_
  rcases canSendRequest_cases x.1 peer with ⟨t, hcan⟩ | ⟨c, t, hcan, hopened⟩
  · rw [hcan] at hmove
    simp only [Prog.update, Meets, hcan, if_true]
    exact hmove.trans (hreject t)
  rw [hcan] at hmove
  simp only [Prog.update, Meets, hcan, Bool.true_eq_false, if_false]
  simp only [orderly, Bool.not_eq_false] at ho hon
  simp only [hon, Bool.not_true, Bool.false_or, Bool.and_eq_true, Bool.not_eq_true'] at ho
  obtain ⟨hcleaning, hrequest⟩ := ho
  have hguarded := hI.kept hmove
  refine (meets_withLock (x := (t, x.2)) (hguarded.free hcleaning) ?_).mono fun _ z hz => hmove.trans hz
  have hprogress : (acquired i t).isInProgress i rootCid = x.1.isInProgress i rootCid := by
    simp only [isInProgress, acquired, setLocked, hopened.instances]
  refine Meets.get (Meets.ite (fun _ => hreject _) fun hnot => Meets.seq ?_)
  rw [hprogress, Bool.not_eq_true] at hnot
  rw [hnot, Bool.false_or] at hrequest
  obtain ⟨hbody, hinstances⟩ := newRequest_congr (s := x.1) (t := acquired i t) (i := i)
    hopened.instances hopened.generator rootCid selector extensions
  have hnew := Silent.newRequest (acquired i t) i rootCid selector extensions
  simp only [Prog.update, Meets]
  cases hmade : ((acquired i t).newRequest i rootCid selector extensions).2 with
  | none => exact LockKept.of_silent hnew
  | some request =>
    rw [← hbody, hmade, Option.all_some] at hrequest
    have hold : (x.1.newRequest i rootCid selector extensions).1.contexts = x.1.contexts ∧
        (x.1.newRequest i rootCid selector extensions).1.network = x.1.network := ⟨rfl, rfl⟩
    exact (lock_request (x := (_, x.2)) address rootCid hopened hguarded hnew rfl hold hinstances
      hrequest).mono fun _ z hz => (LockKept.of_silent hnew).trans hz

/-! ## Runs -/

/-- One case for each operation that a callback may use. -/
theorem lock_byUser {o : Op} (ho : orderly pending x.1 o = true) (huser : o.byUser = true) :
    LockKeeps pending x (op o) := by
  cases o with
  | start i => exact lock_start i
  | stop i => exact lock_doStop i
  | makeRequest i peer address rootCid selector extensions => exact lock_makeRequest ho
  | unsubscribe i ticket => exact lock_unsubscribe i ticket
  | getRequestState i rootCid =>
    have hfree : cleaning i pending = false := by simpa [orderly] using ho
    exact Keeps.bind lock_rely (lock_update hfree fun s => Silent.refl s) fun _ _ _ =>
      Keeps.pure lock_rely ()
  | getRequestInfo i rootCid =>
    have hfree : cleaning i pending = false := by simpa [orderly] using ho
    exact Keeps.bind lock_rely (lock_update hfree fun s => Silent.refl s) fun _ _ _ =>
      Keeps.pure lock_rely ()
  | tick now => exact lock_modify (.of_sane rfl rfl fun h => ⟨h.peers, h.unused, h.registered⟩)
  | _ => cases huser

theorem lock_onPeer (peer : PeerId) {p : PeerContext.Action Unit} (hp : Lawful p) :
    LockKeeps [] x (onPeer peer p) :=
  keeps_found lock_rules peer false hp

/-- The other operations are started at top level. -/
theorem lock_top {o : Op} (huser : o.byUser = false) : LockKeeps [] x (op o) := by
  cases o with
  | cleanupOldRequests i => exact lock_cleanupOldRequests i
  | notifyRejected i => exact keeps_notifyRejected lock_callRules i
  | streamAccepted peer stream => exact keeps_networkOnStreamAccepted lock_rules peer stream
  | event c e => exact keeps_event lock_rules c e
  | addBlockToResponse peer id cid data =>
    exact lock_onPeer peer fun _ _ _ => PeerContext.ledger_op (.addBlockToResponse id cid data)
  | sendResponse peer id status extensions =>
    exact lock_onPeer peer fun _ _ _ => PeerContext.ledger_op (.sendResponse id status extensions)
  | keepPeerAlive peer => exact lock_onPeer peer fun _ _ _ => Keeps.pure PeerContext.ledger_rely ()
  | _ => cases huser

theorem lock_op {o : Op} (ho : orderly pending x.1 o = true) (hen : enabled pending o = true) :
    LockKeeps pending x (op o) := by
  cases huser : o.byUser with
  | true => exact lock_byUser ho huser
  | false =>
    rw [enabled, huser, Bool.or_false, List.isEmpty_iff] at hen
    subst hen
    exact lock_top huser

def OrderlyMove (c : Config Node Call) : Move Op → Prop
  | .invoke o => orderly c.pending c.state o = true
  | .ret => True

instance (c : Config Node Call) (m : Move Op) : Decidable (OrderlyMove c m) := by
  cases m <;> unfold OrderlyMove <;> infer_instance

/-- **No mutex is taken twice** in the runs in which nobody asks from within a clean-up and every
request is taken: in every state that is reached, also while callbacks are pending. -/
theorem no_self_deadlock {ms : List (Move Op)} {c : Config Node Call}
    (hok : Runs.EveryStep step OrderlyMove (Config.start initial) ms)
    (hr : Runs.run step (Config.start initial) ms = some c) : c.state.deadlock = false := by
  have hstart : Guarded [] initial := ⟨⟨Sane.initial, rfl⟩, fun h => absurd h Bool.false_ne_true⟩
  have hsound := Sound.run (R := fun y z => LockKept y.1 z.1) (V := fun st y => Guarded st y.1)
    (fun y => LockKept.refl y.1) (fun _ _ _ h h' => h.trans h') (fun _ _ _ h h' => h.kept h')
    (fun c o ho hen hV => ?_) (.start hstart) hok hr
  · exact hsound.valid.safe.deadlock
  · have hkeeps : LockKeeps c.pending (c.state, c.calls) (op o) := lock_op ho hen
    exact hkeeps.ends (V := fun st y => Guarded st y.1) hV hV fun _ _ _ h h' => h.kept h'

/-- A request is answered, and the callback asks for the state and makes another request. -/
def politeRun : List (Move Op) :=
  askingRun ++ [.invoke (.event 0 (.readerEvent 5 (some (answer 1 .notFound)))),
    .invoke (.getRequestState 0 (inlineCid 1)),
    .invoke (.makeRequest 0 9 none (inlineCid 2) [] []), .ret]

theorem polite_run_free : (after politeRun).state.deadlock = false :=
  @no_self_deadlock politeRun _ (by decide +kernel) (Runs.run_last (by decide +kernel))

/-- The request stalls, and the callback of the clean-up asks for its state. -/
def askingCleanupRun : List (Move Op) :=
  askingRun ++ [.invoke (.tick 180001), .invoke (.cleanupOldRequests 0),
    .invoke (.getRequestState 0 (inlineCid 1))]

/-- While one request is outstanding the stream is closed for writing, and the next one finds its
write fail: the context is closed under the mutex and reports the first one. -/
def failingWriteRun : List (Move Op) :=
  askingRun ++ [.invoke (.event 0 (.messageWritten 5 (.written 14))),
    .invoke (.event 0 (.world ⟨fun _ => true, 0⟩)),
    .invoke (.makeRequest 0 9 none (inlineCid 2) [] [])]

theorem mutex_taken_twice :
    (Runs.run step (Config.start initial) askingCleanupRun).isSome = true ∧
      (after askingCleanupRun).state.deadlock = true ∧
      (Runs.run step (Config.start initial) failingWriteRun).isSome = true ∧
      (after failingWriteRun).state.deadlock = true := by
  decide +kernel

end
end Node
end IpfsLite.Graphsync
