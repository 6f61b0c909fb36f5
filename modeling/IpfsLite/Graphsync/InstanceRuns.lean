import IpfsLite.Graphsync.Instance

/-! # Every instance of a node goes through its own steps

Whatever the operations of the node do and whatever happens during the callbacks, each instance by
itself is run by the steps of `GraphsyncImpl`. What holds after every run of one instance therefore
holds in the node. -/
namespace IpfsLite.Graphsync.Node
set_option autoImplicit false

open Reentrant
open GraphsyncImpl (Step)

/-- One instance gets from `g` to `h`. -/
def Moves (g h : GraphsyncImpl) : Prop := ∃ es, Runs.run GraphsyncImpl.step g es = some h

theorem Moves.refl (g : GraphsyncImpl) : Moves g g := ⟨[], rfl⟩

theorem Moves.trans {g h k : GraphsyncImpl} (hgh : Moves g h) (hhk : Moves h k) : Moves g k := by
  obtain ⟨es, hes⟩ := hgh
  obtain ⟨fs, hfs⟩ := hhk
  refine ⟨es ++ fs, ?_⟩
  rw [Runs.run_append, hes]
  exact hfs

theorem Moves.step {g h : GraphsyncImpl} {e : Step} (he : GraphsyncImpl.step g e = some h) : Moves g h := by
  refine ⟨[e], ?_⟩
  rw [Runs.run_cons, he]
  rfl

/-- All instances at once. -/
def AllMove (s t : Node) : Prop := ∀ i, Moves (s.instances i) (t.instances i)

theorem AllMove.of_same {s t : Node} (h : t.instances = s.instances) : AllMove s t := fun i =>
  h ▸ Moves.refl (s.instances i)

/-- A step of one instance; the others stay. -/
theorem AllMove.of_step {s t : Node} {i : InstanceId} {g : GraphsyncImpl} {e : Step}
    (he : GraphsyncImpl.step (s.instances i) e = some g)
    (ht : t.instances = (s.setInstance i g).instances) : AllMove s t := by
  intro j
  rw [ht]
  by_cases hj : j = i
  · subst hj
    have hg : (s.setInstance j g).instances j = g := if_pos rfl
    rw [hg]
    exact Moves.step he
  · have hother : (s.setInstance i g).instances j = s.instances j := if_neg hj
    rw [hother]
    exact Moves.refl _

/-! ## The rules -/

abbrev Steps {α : Type} (x : Trace Node Call) (p : Action α) : Prop :=
  Keeps (fun y z => AllMove y.1 z.1) (fun y z => AllMove y.1 z.1) (fun _ y => AllMove initial y.1)
    (fun y => AllMove initial y.1) x p

theorem AllMove.trans {s t u : Node} (h : AllMove s t) (h' : AllMove t u) : AllMove s u := fun i =>
  (h i).trans (h' i)

theorem steps_rely : Rely (fun y z : Trace Node Call => AllMove y.1 z.1)
    (fun y z => AllMove y.1 z.1) fun y => AllMove initial y.1 where
  refl _ := AllMove.of_same rfl
  trans h h' := h.trans h'
  absorb h := h
  stable h h' := h.trans h'

section
variable {x : Trace Node Call}

theorem steps_same {f : Node → Node} (h : (f x.1).instances = x.1.instances) :
    Steps x (Prog.modify f) := Keeps.modify fun _ => AllMove.of_same h

theorem steps_same_bind {α : Type} {f : Node → Node} {p : Unit → Action α}
    (h : (f x.1).instances = x.1.instances) (hp : Steps (f x.1, x.2) (p ())) :
    Steps x (Prog.modify f >>= p) :=
  Keeps.modify_bind steps_rely (fun _ => AllMove.of_same h) hp

theorem steps_step {f : Node → Node} {i : InstanceId} {g : GraphsyncImpl} {e : Step}
    (he : GraphsyncImpl.step (x.1.instances i) e = some g)
    (hf : (f x.1).instances = (x.1.setInstance i g).instances) : Steps x (Prog.modify f) :=
  Keeps.modify fun _ => AllMove.of_step he hf

theorem steps_step_bind {α : Type} {f : Node → Node} {p : Unit → Action α} {i : InstanceId}
    {g : GraphsyncImpl} {e : Step} (he : GraphsyncImpl.step (x.1.instances i) e = some g)
    (hf : (f x.1).instances = (x.1.setInstance i g).instances) (hp : Steps (f x.1, x.2) (p ())) :
    Steps x (Prog.modify f >>= p) :=
  Keeps.modify_bind steps_rely (fun _ => AllMove.of_step he hf) hp

theorem steps_call (c : Call) : Steps x (Prog.call c) :=
  Keeps.call steps_rely fun hI => ⟨hI, AllMove.of_same rfl⟩

theorem steps_withLock (i : InstanceId) {α : Type} {p : Action α} (hp : ∀ y, y.1.instances = x.1.instances →
    Steps y p) : Steps x (withLock i p) := by
  refine steps_same_bind rfl ?_
  refine Keeps.bind steps_rely (hp _ rfl) fun a y _ => ?_
  exact steps_same_bind rfl (Keeps.pure steps_rely a)

/-! ## Feedback of the contexts -/

theorem instances_setInstance (s : Node) (i : InstanceId) (g : GraphsyncImpl) :
    (s.setInstance i g).instances i = g := if_pos rfl

theorem setInstance_setInstance (s : Node) (i : InstanceId) (g h : GraphsyncImpl) :
    ((s.setInstance i g).setInstance i h).instances = (s.setInstance i h).instances := by
  funext j
  by_cases hj : j = i <;> simp [setInstance, hj]

/-- The node once `requested_cids_mutex_` is taken. -/
def lockedNode (i : InstanceId) (s : Node) : Node :=
  { s.setLocked i true with deadlock := s.deadlock || s.locked i }

theorem localOnResponse_apply (i : InstanceId) (id : RequestId) (status : ResponseStatusCode)
    (extensions : List Extension) (origin : Origin) (s : Node) :
    localOnResponse i id status extensions origin s =
      (Prog.when ((s.instances i).localRequests.onResponse id status).2
        (Prog.call (.progress i id status extensions origin)) : Action Unit)
        (s.setLocal i ((s.instances i).localRequests.onResponse id status).1) := rfl

theorem steps_onResponse (i : InstanceId) (id : RequestId) (status : ResponseStatusCode)
    (extensions : List Extension) : Steps x (onResponse i id status extensions) := by
  refine Keeps.get (Keeps.ite (fun hs => ?_) fun _ => Keeps.pure steps_rely ())
  have hstep : GraphsyncImpl.step (x.1.instances i) (.onResponse x.1.now id status) =
      some ((x.1.instances i).onResponse x.1.now id status) := if_pos hs
  let answered := (x.1.instances i).localRequests.onResponse id status
  let tell : Action Unit := Prog.when answered.2 (Prog.call (.progress i id status extensions .response))
  have htell (y : Trace Node Call) : Steps y tell := Keeps.when steps_rely fun _ => steps_call _
  cases hroot : (x.1.instances i).localRequests.getRequestRootCid id with
  | none =>
    have hg : (x.1.instances i).onResponse x.1.now id status = (x.1.instances i).localResponse id status := by
      simp only [GraphsyncImpl.onResponse, hroot]
    rw [hg] at hstep
    exact Keeps.reach steps_rely (show _ = tell _ from rfl) (fun _ => AllMove.of_step hstep rfl) (htell _)
  | some rootCid =>
    let tracked := ((lockedNode i x.1).modifyTracked i rootCid (trackResponse x.1.now status)).setLocked i false
    have hown : tracked.instances i = (x.1.instances i).modifyTracked rootCid (trackResponse x.1.now status) :=
      instances_setInstance _ _ _
    have hrun : localOnResponse i id status extensions .response tracked = tell (tracked.setLocal i answered.1) := by
      rw [localOnResponse_apply, hown]
      rfl
    have hg : (x.1.instances i).onResponse x.1.now id status =
        { tracked.instances i with localRequests := answered.1 } := by
      simp only [GraphsyncImpl.onResponse, hroot, hown]
      rfl
    rw [hg] at hstep
    exact Keeps.reach steps_rely (show _ = tell (tracked.setLocal i answered.1) from hrun)
      (fun _ => AllMove.of_step hstep (setInstance_setInstance _ _ _ _)) (htell _)

theorem steps_touch (i : InstanceId) (rootCid : CID) (hs : (x.1.instances i).started = true) :
    Steps x (withLock i (Prog.update (touchRequest i rootCid))) := by
  have hstep : GraphsyncImpl.step (x.1.instances i) (.onBlock x.1.now rootCid) =
      some ((x.1.instances i).modifyTracked rootCid fun info => { info with lastActivityTime := x.1.now }) :=
    if_pos hs
  exact Keeps.reach steps_rely (q := pure ((x.1.instances i).trackedRequests.find? rootCid)) rfl
    (fun _ => AllMove.of_step hstep rfl) (Keeps.pure steps_rely _)

theorem steps_onBlock (i : InstanceId) (rootCid cid : CID) (data : Bytes) :
    Steps x (onBlock i rootCid cid data) := by
  refine Keeps.get (Keeps.ite (fun hs => ?_) fun _ => Keeps.pure steps_rely ())
  refine Keeps.bind steps_rely (steps_touch i rootCid hs) fun tracked y _ => ?_
  cases tracked with
  | none => exact Keeps.pure steps_rely ()
  | some info =>
    refine Keeps.bind steps_rely (steps_call _) fun _ z _ => Keeps.when steps_rely fun _ => ?_
    refine steps_withLock i fun _ _ => ?_
    exact steps_step (e := .blockProcessed rootCid) rfl rfl

theorem steps_handle (c : ContextId) (d : PeerContext.Call) : Steps x (handle c d) := by
  cases d with
  | onResponse i id status extensions => exact steps_onResponse i id status extensions
  | onRemoteRequest i request => exact Keeps.pure steps_rely ()
  | onBlock i rootCid cid data => exact steps_onBlock i rootCid cid data
  | peerClosed status => exact steps_same rfl

/-- A context acts on the instances only through what it calls. -/
theorem steps_onContext (c : ContextId) {α : Type} (p : PeerContext.Action α) :
    Steps x (onContext c p) := by
  intro hI
  refine Meets.embed (R := fun _ _ => True) (fun y : Trace Node Call => AllMove x.1 y.1)
    (fun d tr y hy _ => ?_) (fun _ tr y hy _ => hy) (p (x.1.context c)) x (AllMove.of_same rfl)
    (Meets.anything _ _)
  have hhandle : Steps (y.1.setTrace c tr, y.2) (handle c d) := steps_handle c d
  have hput : AllMove y.1 (y.1.setTrace c tr) := AllMove.of_same rfl
  exact (hhandle ((hI.trans hy).trans hput)).mono fun _ z hz => ⟨hy.trans hz, trivial⟩

/-! ## The operations -/

/-- Finding a context changes nothing but the network and the contexts. -/
theorem findContext_frame (s : Node) (peer : PeerId) (createIfNotFound : Bool) : ∃ network contexts,
    (s.findContext peer createIfNotFound).1 = { s with network := network, contexts := contexts } := by
  unfold findContext
  split
  · exact ⟨_, _, rfl⟩
  · split
    · split <;> exact ⟨_, _, rfl⟩
    · split
      · dsimp only
        split <;> exact ⟨_, _, rfl⟩
      · exact ⟨_, _, rfl⟩

theorem canSendRequest_frame (s : Node) (peer : PeerId) : ∃ network contexts,
    (s.canSendRequest peer).1 = { s with network := network, contexts := contexts } := by
  obtain ⟨network, contexts, hfound⟩ := findContext_frame s peer true
  unfold canSendRequest
  cases hf : s.findContext peer true with
  | mk t found =>
    rw [hf] at hfound
    cases hfound
    cases found with
    | none => exact ⟨_, _, rfl⟩
    | some c =>
      dsimp only
      split <;> exact ⟨_, _, rfl⟩

theorem findContext_instances (s : Node) (peer : PeerId) (createIfNotFound : Bool) :
    (s.findContext peer createIfNotFound).1.instances = s.instances := by
  obtain ⟨_, _, hframe⟩ := findContext_frame s peer createIfNotFound
  rw [hframe]

theorem canSendRequest_instances (s : Node) (peer : PeerId) :
    (s.canSendRequest peer).1.instances = s.instances := by
  obtain ⟨_, _, hframe⟩ := canSendRequest_frame s peer
  rw [hframe]

theorem steps_findContext (peer : PeerId) (createIfNotFound : Bool) :
    Steps x (Prog.update (findContext peer createIfNotFound)) := fun _ =>
  AllMove.of_same (findContext_instances x.1 peer createIfNotFound)

theorem steps_canSendRequest (peer : PeerId) : Steps x (Prog.update (canSendRequest peer)) := fun _ =>
  AllMove.of_same (canSendRequest_instances x.1 peer)

theorem steps_found (peer : PeerId) (createIfNotFound : Bool) (p : PeerContext.Action Unit) :
    Steps x (do
      let found ← Prog.update (findContext peer createIfNotFound)
      match found with
      | none => pure ()
      | some c => onContext c p) := by
  refine Keeps.bind steps_rely (steps_findContext peer createIfNotFound) fun found y _ => ?_
  cases found with
  | none => exact Keeps.pure steps_rely ()
  | some c => exact steps_onContext c p

theorem steps_networkMakeRequest (peer : PeerId) (address : Option (List Multiaddress)) (id : RequestId)
    (body : Bytes) : Steps x (networkMakeRequest peer address id body) := by
  refine Keeps.bind steps_rely (steps_canSendRequest peer) fun ok y _ => ?_
  exact Keeps.ite (fun _ => steps_found peer false _) fun _ => Keeps.pure steps_rely ()

theorem steps_reject (i : InstanceId) : Steps x (Prog.modify (newRejectedRequest i)) :=
  steps_step (e := .reject) rfl rfl

/-- What `makeRequest` does under its mutex. -/
theorem steps_tryRequest (i : InstanceId) (peer : PeerId) (address : Option (List Multiaddress))
    (rootCid : CID) (selector : Bytes) (extensions : List Extension)
    (hs : (x.1.instances i).started = true) :
    Steps x (do
      let s ← Prog.get
      if s.isInProgress i rootCid then Prog.modify (newRejectedRequest i)
      else
        let made ← Prog.update (newRequest i rootCid selector extensions)
        match made with
        | none => pure ()
        | some request =>
          Prog.modify (trackRequest i rootCid request.requestId)
          Prog.when (0 < request.requestId)
            (networkMakeRequest peer address request.requestId request.body)) := by
  have hstep : GraphsyncImpl.step (x.1.instances i)
      (.makeRequest x.1.now x.1.generator rootCid selector extensions) =
      some ((x.1.instances i).makeRequest x.1.now x.1.generator rootCid selector extensions) := if_pos hs
  refine Keeps.get (Keeps.ite (fun hprogress => ?_) fun hprogress => ?_)
  · have hg : (x.1.instances i).makeRequest x.1.now x.1.generator rootCid selector extensions =
        (x.1.instances i).reject := if_pos hprogress
    rw [hg] at hstep
    exact steps_step hstep rfl
  · have hg : (x.1.instances i).makeRequest x.1.now x.1.generator rootCid selector extensions = _ :=
      if_neg hprogress
    rw [hg] at hstep
    let s := (x.1.newRequest i rootCid selector extensions).1
    have hown : s.instances i =
        { x.1.instances i with
          localRequests := ((x.1.instances i).localRequests.newRequest x.1.generator rootCid selector extensions).1.1 } :=
      instances_setInstance _ _ _
    cases hmade : ((x.1.instances i).localRequests.newRequest x.1.generator rootCid selector extensions).2 with
    | none =>
      simp only [hmade] at hstep
      refine Keeps.reach steps_rely (q := pure ()) (s := s) ?_ (fun _ => AllMove.of_step hstep rfl)
        (Keeps.pure steps_rely ())
      show (match (x.1.newRequest i rootCid selector extensions).2 with
        | none => pure ()
        | some request => _ : Action Unit) s = _
      simp only [newRequest, hmade]
    | some request =>
      simp only [hmade] at hstep
      refine Keeps.reach steps_rely (q := Prog.when (0 < request.requestId)
        (networkMakeRequest peer address request.requestId request.body))
        (s := s.trackRequest i rootCid request.requestId) ?_ (fun _ => AllMove.of_step hstep ?_) ?_
      · show (match (x.1.newRequest i rootCid selector extensions).2 with
          | none => pure ()
          | some request => _ : Action Unit) s = _
        simp only [newRequest, hmade]
        rfl
      · have htracked : s.trackRequest i rootCid request.requestId = s.setInstance i { s.instances i with
            trackedRequests := (s.instances i).trackedRequests.insert rootCid
              ⟨.inProgress, request.requestId, x.1.now, x.1.now⟩ } := rfl
        rw [htracked, hown]
        exact setInstance_setInstance _ _ _ _
      · exact Keeps.when steps_rely fun _ => steps_networkMakeRequest peer address _ _

theorem steps_makeRequest (i : InstanceId) (peer : PeerId) (address : Option (List Multiaddress))
    (rootCid : CID) (selector : Bytes) (extensions : List Extension) :
    Steps x (makeRequest i peer address rootCid selector extensions) := by
  refine Keeps.get (Keeps.ite (fun _ => steps_reject i) fun hs => ?_)
  have hs' : (x.1.instances i).started = true := Bool.eq_true_of_not_eq_false hs
  have hsame := canSendRequest_instances x.1 peer
  refine Keeps.reach steps_rely (s := (x.1.canSendRequest peer).1) rfl (fun _ => AllMove.of_same hsame)
    (Keeps.ite (fun _ => steps_reject i) fun _ => ?_)
  refine steps_withLock i fun y hy => steps_tryRequest i peer address rootCid selector extensions ?_
  rw [hy, hsame]
  exact hs'

theorem steps_start (i : InstanceId) : Steps x (start i) :=
  steps_same_bind rfl (steps_step (e := .start) rfl rfl)

theorem steps_closeAllPeers : Steps x closeAllPeers :=
  Keeps.get (steps_same_bind rfl (Keeps.forM steps_rely fun e _ _ _ => steps_onContext e.2 _))

theorem steps_networkStop (i : InstanceId) : Steps x (networkStop i) :=
  Keeps.get (steps_same_bind rfl (Keeps.when steps_rely fun _ => steps_closeAllPeers))

theorem steps_cancelAll (i : InstanceId) (ids : List RequestId) : Steps x (cancelAll i ids) :=
  Keeps.forM steps_rely fun _ _ _ _ => steps_call _

theorem steps_cancelRejected (i : InstanceId) : Steps x (cancelRejected i) :=
  Keeps.get (steps_step_bind (e := .cancelRejected) rfl rfl (steps_cancelAll i _))

theorem steps_doStop (i : InstanceId) : Steps x (doStop i) := by
  refine Keeps.get (Keeps.ite (fun _ => ?_) fun _ => Keeps.pure steps_rely ())
  refine steps_step_bind (e := .stop) rfl rfl ?_
  refine Keeps.bind steps_rely (steps_networkStop i) fun _ y _ => ?_
  have hown : (y.1.setTracked i .empty).instances i = { y.1.instances i with trackedRequests := .empty } :=
    instances_setInstance _ _ _
  have hstep : GraphsyncImpl.step (y.1.instances i) .cleared = some _ := rfl
  refine Keeps.reach steps_rely (s := (y.1.setTracked i .empty).setLocal i
      { (y.1.instances i).localRequests with activeRequests := .empty })
    (q := cancelAll i (y.1.instances i).localRequests.activeRequests.keys >>= fun _ => cancelRejected i)
    ?_ (fun _ => AllMove.of_step hstep ?_)
    (Keeps.bind steps_rely (steps_cancelAll i _) fun _ _ _ => steps_cancelRejected i)
  · show ((cancelActive i >>= fun _ => cancelRejected i) : Action Unit) (y.1.setTracked i .empty) = _
    have hcancel : cancelActive i (y.1.setTracked i .empty) =
        cancelAll i ((y.1.setTracked i .empty).instances i).localRequests.activeRequests.keys
          ((y.1.setTracked i .empty).setLocal i
            { ((y.1.setTracked i .empty).instances i).localRequests with activeRequests := .empty }) := rfl
    rw [Prog.bind_apply, hcancel, hown]
    rfl
  · rw [setLocal, hown]
    exact setInstance_setInstance _ _ _ _

theorem steps_notifyRejected (i : InstanceId) : Steps x (notifyRejected i) := by
  refine Keeps.bind steps_rely (steps_cancelRejected i) fun _ y _ => ?_
  by_cases he : (y.1.instances i).localRequests.rejectedRequests.isEmpty = true
  · refine steps_step (e := .resetRejectedIds) (if_pos he) ?_
    rw [if_pos he]
    rfl
  · refine steps_same ?_
    rw [if_neg he]

theorem steps_networkCancelRequest (id : RequestId) (body : Option Bytes) :
    Steps x (networkCancelRequest id body) := by
  refine Keeps.get (Keeps.ite (fun _ => ?_) fun _ => Keeps.pure steps_rely ())
  cases x.1.network.activeRequestsPerPeer.find? id with
  | none => exact Keeps.pure steps_rely ()
  | some c =>
    refine steps_same_bind rfl ?_
    cases body with
    | none => exact Keeps.pure steps_rely ()
    | some body => exact steps_onContext c _

theorem steps_unsubscribe (i : InstanceId) (ticket : RequestId) : Steps x (unsubscribe i ticket) := by
  refine Keeps.get (steps_step_bind (e := .unsubscribe ticket) rfl rfl ?_)
  cases ((x.1.instances i).localRequests.unsubscribe ticket).2 with
  | none => exact Keeps.pure steps_rely ()
  | some cancel => exact steps_networkCancelRequest cancel.1 cancel.2

theorem steps_cleanupRequest (i : InstanceId) (now : ℕ) (rootCid : CID) :
    Steps x (cleanupRequest i now rootCid) := by
  have hremove (y : Trace Node Call) :
      Steps y (Prog.modify fun s => s.setTracked i ((s.instances i).trackedRequests.erase rootCid)) :=
    steps_step (e := .cleanupRemove rootCid) rfl rfl
  refine Keeps.get ?_
  cases hfind : (x.1.instances i).trackedRequests.find? rootCid with
  | none => exact Keeps.pure steps_rely ()
  | some info =>
    refine Keeps.ite (fun _ => hremove _) fun hprogress => ?_
    refine Keeps.ite (fun hstalled => ?_) fun _ => Keeps.pure steps_rely ()
    have hstep : GraphsyncImpl.step (x.1.instances i) (.cleanupStalled now rootCid) =
        some ((x.1.instances i).failStalled rootCid info.requestId) := by
      simp only [GraphsyncImpl.step, hfind]
      exact if_pos ⟨not_not.mp hprogress, hstalled⟩
    let failed := x.1.modifyTracked i rootCid fun info => { info with state := .failed }
    have hown : failed.instances i =
        (x.1.instances i).modifyTracked rootCid fun info => { info with state := .failed } :=
      instances_setInstance _ _ _
    let answered := (x.1.instances i).localRequests.onResponse info.requestId .timeout
    let tell : Action Unit := do
      Prog.when answered.2 (Prog.call (.progress i info.requestId .timeout [] .cleanup))
      Prog.modify fun s => s.setTracked i ((s.instances i).trackedRequests.erase rootCid)
    have htell (y : Trace Node Call) : Steps y tell :=
      Keeps.bind steps_rely (Keeps.when steps_rely fun _ => steps_call _) fun _ z _ => hremove z
    refine Keeps.reach steps_rely (s := failed.setLocal i answered.1) (q := tell) ?_
      (fun _ => AllMove.of_step hstep ?_) (htell _)
    · show ((localOnResponse i info.requestId .timeout [] .cleanup >>= fun _ =>
        Prog.modify fun s => s.setTracked i ((s.instances i).trackedRequests.erase rootCid)) : Action Unit)
          failed = _
      rw [Prog.bind_apply, localOnResponse_apply, hown]
      rfl
    · rw [setLocal, hown]
      exact setInstance_setInstance _ _ _ _

theorem steps_cleanupOldRequests (i : InstanceId) : Steps x (cleanupOldRequests i) :=
  steps_withLock i fun _ _ => Keeps.get (Keeps.forM steps_rely fun e _ _ _ => steps_cleanupRequest i _ e.1)

theorem steps_onPeer (peer : PeerId) (p : PeerContext.Action Unit) : Steps x (onPeer peer p) :=
  steps_found peer false p

/-- One case for each operation. -/
theorem steps_op (o : Op) : Steps x (op o) := by
  cases o with
  | start i => exact steps_start i
  | stop i => exact steps_doStop i
  | makeRequest i peer address rootCid selector extensions => exact steps_makeRequest i peer address _ _ _
  | unsubscribe i ticket => exact steps_unsubscribe i ticket
  | getRequestState i rootCid =>
    exact Keeps.bind steps_rely (steps_withLock i fun y _ _ => AllMove.of_same rfl) fun _ _ _ =>
      Keeps.pure steps_rely ()
  | getRequestInfo i rootCid =>
    exact Keeps.bind steps_rely (steps_withLock i fun y _ _ => AllMove.of_same rfl) fun _ _ _ =>
      Keeps.pure steps_rely ()
  | tick now => exact steps_same rfl
  | cleanupOldRequests i => exact steps_cleanupOldRequests i
  | notifyRejected i => exact steps_notifyRejected i
  | streamAccepted peer stream =>
    exact Keeps.get (Keeps.ite (fun _ => steps_found peer true _) fun _ => Keeps.pure steps_rely ())
  | event c e =>
    exact Keeps.get (Keeps.ite (fun _ => steps_onContext c _) fun _ => Keeps.pure steps_rely ())
  | addBlockToResponse peer id cid data => exact steps_onPeer peer _
  | sendResponse peer id status extensions => exact steps_onPeer peer _
  | keepPeerAlive peer => exact steps_onPeer peer _

end

/-- **Each instance of the node is a single instance**: what it has gone through is a run of its own. -/
theorem instance_of_run {ms : List (Move Op)} {c : Config Node Call}
    (hr : Runs.run step (Config.start initial) ms = some c) (i : InstanceId) :
    ∃ es, Runs.run GraphsyncImpl.step .initial es = some (c.state.instances i) := by
  have hsound := Sound.run (R := fun y z : Trace Node Call => AllMove y.1 z.1)
    (V := fun _ y => AllMove initial y.1) (fun _ => AllMove.of_same rfl)
    (fun _ _ _ h h' => h.trans h') (fun _ _ _ hy hyz => hy.trans hyz)
    (fun c o _ _ hV => ?_)
    (Sound.start (AllMove.of_same rfl)) (Runs.everyStep_true _ _) hr
  · exact hsound.valid i
  · have hop : Steps (c.state, c.calls) (op o) := steps_op o
    exact hop.ends hV hV fun _ y z (hy : AllMove initial y.1) hyz => hy.trans hyz

end IpfsLite.Graphsync.Node
