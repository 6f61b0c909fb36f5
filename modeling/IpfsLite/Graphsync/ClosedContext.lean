import IpfsLite.Graphsync.RemoteRequests

/-! # A closed context

`close` empties every table, but three entry points do not ask whether the context is closed: a
window that is adjusted late adds a stream, `needToConnect` makes an endpoint, and a request whose
write fails is entered after the failure has closed the context. -/
namespace IpfsLite.Graphsync.PeerContext
set_option autoImplicit false

open Reentrant

/-- Nothing is left. -/
structure Shut (s : PeerContext) : Prop where
  closed : s.closed = true
  streams : s.streams = .empty
  localIds : s.localRequestIds = .empty
  remote : s.remoteRequestsStreams = .empty
  endpoint : s.requestsEndpoint = none

/-- The network is told by the timer, or it has been told at once. -/
def Announced (s : PeerContext) : Prop := s.closeStatus ≠ .rejectedLocally → s.timer = .peerClosed

/-- The requests that wait for the stream can be written to it. -/
def flushes (s : PeerContext) (stream : StreamPtr) : Bool :=
  match s.requestsEndpoint with
  | some (.connecting (_ :: _) _) => s.getState ≠ .isConnecting || !s.world.closedForWrite stream
  | _ => true

/-- Nothing arrives too late, and a request that finds room is taken. -/
def Timely (s : PeerContext) : Op → Prop
  | .needToConnect => s.closed = false ∨ s.requestsEndpoint.isSome = true
  | .enqueueRequest _ body =>
    s.closed = true ∨ s.requestsEndpoint.all (fun ep => ep.overflows s.queues body || s.accepts body) = true
  | .windowAdjusted stream true =>
    s.adjusting.contains stream = true → s.closed = false ∧ s.flushes stream = true
  | _ => True

instance (s : PeerContext) (o : Op) : Decidable (s.Timely o) :=
  match o with
  | .needToConnect => inferInstanceAs (Decidable (s.closed = false ∨ s.requestsEndpoint.isSome = true))
  | .enqueueRequest _ body => inferInstanceAs (Decidable (s.closed = true ∨
      s.requestsEndpoint.all (fun ep => ep.overflows s.queues body || s.accepts body) = true))
  | .windowAdjusted stream true => inferInstanceAs (Decidable
      (s.adjusting.contains stream = true → s.closed = false ∧ s.flushes stream = true))
  | .windowAdjusted _ false | .setOutboundAddress _ | .cancelRequest _ _ | .addBlockToResponse _ _ _
  | .sendResponse _ _ _ | .keepAlive | .close _ | .streamConnected _ | .streamAccepted _ | .readerEvent _ _
  | .messageWritten _ _ | .timer | .world _ => inferInstanceAs (Decidable True)

section
variable {s t : PeerContext} {calls more : List Call} {x y z : Trace PeerContext Call}

theorem endpointStream_isSome (s : PeerContext) : s.endpointStream.isSome = s.requestsEndpoint.isSome :=
  Option.isSome_map

theorem Shut.of_same (h : s.Shut) (hclosed : t.closed = s.closed)
    (hstreams : ∀ st, t.streams.contains st = s.streams.contains st)
    (hids : t.localRequestIds = s.localRequestIds)
    (hremote : t.remoteRequestsStreams = s.remoteRequestsStreams)
    (hep : t.endpointStream = s.endpointStream) : t.Shut where
  closed := hclosed.trans h.closed
  streams := (OrdMap.eq_empty_iff _).mpr fun st => by
    rw [hstreams, h.streams]
    rfl
  localIds := hids.trans h.localIds
  remote := hremote.trans h.remote
  endpoint := by
    rw [endpointStream, endpointStream, h.endpoint, Option.map_none, Option.map_eq_none_iff] at hep
    exact hep

theorem Shut.plain (h : s.Shut) (hst : Plain s t) : t.Shut :=
  h.of_same hst.closed hst.streams hst.localIds hst.remote hst.endpoint

theorem Shut.not_open (h : s.Shut) : s.closed ≠ false := fun hopen => by
  rw [h.closed] at hopen
  cases hopen

theorem Shut.no_stream (h : s.Shut) (stream : StreamPtr) : s.streams.find? stream = none := by
  rw [h.streams]
  rfl

theorem Shut.eraseLocalId (h : s.Shut) (id : RequestId) : (eraseLocalId id s).Shut where
  closed := h.closed
  streams := h.streams
  localIds := by
    rw [PeerContext.eraseLocalId, h.localIds]
    rfl
  remote := h.remote
  endpoint := h.endpoint

theorem Shut.dropRemoteRequests (h : s.Shut) (stream : StreamPtr) : s.dropRemoteRequests stream = s := by
  rw [PeerContext.dropRemoteRequests, h.no_stream]

/-! ## A stream that comes in time -/

theorem MessageQueue.enqueue_open (q : MessageQueue) (data : Bytes) : (q.enqueue false data).2 = false := by
  unfold MessageQueue.enqueue
  split
  · rfl
  · split <;> rfl

/-- Writing to a stream that is open for it calls nobody. -/
theorem writeTo_open {stream : StreamPtr} (hopen : s.world.closedForWrite stream = false) (data : Bytes) :
    ∃ t, writeTo stream data s = .done () t ∧ Plain s t ∧ t.world = s.world := by
  refine ⟨setQueue stream ((s.queues stream).enqueue (s.world.closedForWrite stream) data).1 s, ?_,
    Plain.setQueue s stream _, rfl⟩
  have hwritten := MessageQueue.enqueue_open (s.queues stream) data
  simp only [writeTo, Prog.bind_apply, Prog.get_apply, Prog.modify_apply, Res.bind_done, hopen, hwritten,
    Bool.false_eq_true, if_false, Prog.pure_apply]

theorem forM_writeTo_open {stream : StreamPtr} (buffers : List Bytes)
    (hopen : buffers ≠ [] → s.world.closedForWrite stream = false) :
    ∃ t, buffers.forM (fun data => writeTo stream data) s = .done () t ∧ Plain s t := by
  induction buffers generalizing s with
  | nil => exact ⟨s, rfl, Plain.refl s⟩
  | cons data rest ih =>
    have hs := hopen (List.cons_ne_nil data rest)
    obtain ⟨u, hwrite, hplain, hworld⟩ := writeTo_open hs data
    obtain ⟨t, hrest, hplain'⟩ := ih (s := u) fun _ => by rw [hworld, hs]
    refine ⟨t, ?_, hplain.trans hplain'⟩
    show (writeTo stream data s).bind _ = _
    rw [hwrite]
    exact hrest

/-- The last step of `finishStreamConfig`. -/
def addStream (stream : StreamPtr) (queue : Bool) (s : PeerContext) : PeerContext :=
  { s with
      timer := if s.streams.isEmpty then .streamCleanup else s.timer
      streams := s.streams.emplace stream
        { StreamCtx.initial with
            queue := queue
            expireTime := s.world.now + kStreamCloseDelayMsec } }

theorem finishStreamConfig_eq (stream : StreamPtr) (s : PeerContext) :
    finishStreamConfig stream s =
      (if s.getState = .isConnecting then onConnected stream (setQueue stream (.create stream) s)
        else .done () s).bind fun _ t => .done () (addStream stream (decide (s.getState = .isConnecting)) t) := by
  by_cases hconn : s.getState = .isConnecting
  · rw [if_pos hconn]
    show ((Prog.when (decide (s.getState = .isConnecting) = true) _ : Action Unit) s).bind _ = _
    rw [Prog.when, if_pos (decide_eq_true hconn)]
    rfl
  · rw [if_neg hconn]
    show ((Prog.when (decide (s.getState = .isConnecting) = true) _ : Action Unit) s).bind _ = _
    rw [Prog.when, if_neg (by rw [decide_eq_true_eq]; exact hconn)]
    rfl

/-- The stream joins an open context, and the endpoint stays or goes live. -/
theorem finishStreamConfig_open {stream : StreamPtr} (hopen : s.closed = false)
    (hflush : s.flushes stream = true) :
    ∃ t, finishStreamConfig stream s = .done () t ∧ t.closed = false ∧
      t.localRequestIds = s.localRequestIds ∧ (s.EndpointLive → t.EndpointLive) := by
  rw [finishStreamConfig_eq]
  by_cases hconn : s.getState = .isConnecting
  · obtain ⟨-, buffers, bytes, hep⟩ := connecting_of_getState hconn
    have hep' : (setQueue stream (.create stream) s).requestsEndpoint = some (.connecting buffers bytes) := hep
    have hbuffers : buffers ≠ [] → s.world.closedForWrite stream = false := fun hne => by
      cases buffers with
      | nil => exact absurd rfl hne
      | cons data rest => simpa [flushes, hep, hconn] using hflush
    obtain ⟨u, hrun, hplain⟩ := forM_writeTo_open
      (s := { setQueue stream (.create stream) s with requestsEndpoint := some (.connected stream) })
      buffers hbuffers
    have honConnected : onConnected stream (setQueue stream (.create stream) s) = .done () u := by
      simp only [onConnected, Prog.bind_apply, Prog.get_apply, Res.bind_done, hep', Prog.modify_apply]
      exact hrun
    rw [if_pos hconn, honConnected]
    refine ⟨addStream stream _ u, rfl, hplain.closed.trans hopen, hplain.localIds, fun _ => ?_⟩
    refine ⟨some stream, hplain.endpoint, fun st hst => ?_⟩
    cases hst
    exact (OrdMap.contains_emplace _ _ _ _).trans (by simp)
  · rw [if_neg hconn]
    exact ⟨addStream stream _ s, rfl, hopen, rfl, fun hl => hl.emplace rfl rfl⟩

/-! ## Between the steps of a closing -/

/-- A closed context is empty, and in an open one a request waits for a live endpoint. -/
structure Settled (s : PeerContext) : Prop where
  shut : s.closed = true → s.Shut ∧ s.Announced
  live {id : RequestId} : s.closed = false → s.localRequestIds.contains id = true → s.EndpointLive

/-- While the context is being closed the endpoint is still there. -/
def Coherent (s : PeerContext) : Prop :=
  s.Settled ∨ s.closed = true ∧ s.remoteRequestsStreams = .empty ∧ s.requestsEndpoint.isSome = true

/-- What nobody changes in a closed context. -/
structure Frozen (s t : PeerContext) : Prop where
  closed : t.closed = s.closed
  localIds : t.localRequestIds = s.localRequestIds
  endpoint : t.endpointStream = s.endpointStream
  streams (st : StreamPtr) : t.streams.contains st = s.streams.contains st
  remote : t.remoteRequestsStreams = s.remoteRequestsStreams
  timer : t.timer = s.timer
  closeStatus : t.closeStatus = s.closeStatus

theorem Frozen.of_plain (h : Plain s t) : Frozen s t :=
  ⟨h.closed, h.localIds, h.endpoint, h.streams, h.remote, h.timer, h.closeStatus⟩

theorem Frozen.trans {u : PeerContext} (h : Frozen s t) (h' : Frozen t u) : Frozen s u :=
  ⟨h'.closed.trans h.closed, h'.localIds.trans h.localIds, h'.endpoint.trans h.endpoint,
    fun st => (h'.streams st).trans (h.streams st), h'.remote.trans h.remote, h'.timer.trans h.timer,
    h'.closeStatus.trans h.closeStatus⟩

theorem Frozen.live (h : Frozen s t) (hs : s.EndpointLive) : t.EndpointLive := by
  obtain ⟨o, ho, hlive⟩ := hs
  exact ⟨o, h.endpoint.trans ho, fun st hst => (h.streams st).trans (hlive st hst)⟩

theorem Frozen.settled (h : Frozen s t) (hs : s.Settled) : t.Settled where
  shut hc := by
    obtain ⟨hshut, htimer⟩ := hs.shut (h.closed.symm.trans hc)
    refine ⟨hshut.of_same h.closed h.streams h.localIds h.remote h.endpoint, fun hst => ?_⟩
    exact h.timer.trans (htimer (h.closeStatus ▸ hst))
  live hc hid := h.live (hs.live (h.closed.symm.trans hc) (h.localIds ▸ hid))

theorem Frozen.endpoint_isSome (h : Frozen s t) : t.requestsEndpoint.isSome = s.requestsEndpoint.isSome := by
  rw [← endpointStream_isSome, h.endpoint, endpointStream_isSome]

theorem Coherent.settled (h : s.Coherent) (hopen : s.closed = false) : s.Settled :=
  h.resolve_right fun hc => by
    rw [hopen] at hc
    exact Bool.false_ne_true hc.1

/-- What a feedback may do to the context while it is being called. -/
structure ShutRely (x y : Trace PeerContext Call) : Prop where
  frozen : x.1.closed = true → Frozen x.1 y.1
  settled : x.1.closed = false → x.1.Settled → y.1.Settled
  doomed : x.1.closed = false → x.1.Doomed → y.1.Doomed ∨ y.1.closed = true

theorem ShutRely.of_frozen (h : Frozen s t) : ShutRely (s, calls) (t, more) where
  frozen _ := h
  settled _ := h.settled
  doomed _ := fun ⟨st, hst, hgone⟩ => .inl ⟨st, h.endpoint.trans hst, (h.streams st).trans hgone⟩

theorem ShutRely.keeps (h : ShutRely x y) (hx : x.1.Settled) : y.1.Settled := by
  cases hc : x.1.closed with
  | true => exact (h.frozen hc).settled hx
  | false => exact h.settled hc hx

theorem ShutRely.trans (h : ShutRely x y) (h' : ShutRely y z) : ShutRely x z where
  frozen hc := (h.frozen hc).trans (h'.frozen ((h.frozen hc).closed.trans hc))
  settled hc hx := h'.keeps (h.settled hc hx)
  doomed hc hd := by
    cases hy : y.1.closed with
    | true => exact .inr ((h'.frozen hy).closed.trans hy)
    | false => exact h'.doomed hy ((h.doomed hc hd).resolve_right (Bool.eq_false_iff.mp hy))

theorem Coherent.moved (h : x.1.Coherent) (hxy : ShutRely x y) : y.1.Coherent := by
  rcases h with hs | ⟨hc, hremote, hep⟩
  · exact .inl (hxy.keeps hs)
  · have hf := hxy.frozen hc
    exact .inr ⟨hf.closed.trans hc, hf.remote.trans hremote, hf.endpoint_isSome.trans hep⟩

theorem shut_rely : Rely ShutRely ShutRely fun x => x.1.Coherent where
  refl _ := .of_frozen ⟨rfl, rfl, rfl, fun _ => rfl, rfl, rfl, rfl⟩
  trans := ShutRely.trans
  absorb h := h
  stable := Coherent.moved

/-- Programs that may run while a feedback is being called. -/
abbrev ShutKeeps (x : Trace PeerContext Call) {α : Type} (p : Action α) : Prop :=
  Keeps ShutRely ShutRely (fun _ y => y.1.Coherent) (fun x => x.1.Coherent) x p

theorem shut_logic : Logic (fun x p => ShutKeeps x p) ShutRely
    fun x t => x.1.Coherent → ShutRely x (t, x.2) := shut_rely.logic

theorem shut_call (c : Call) : ShutKeeps x (Prog.call c) :=
  Keeps.call shut_rely fun hx => ⟨hx, .of_frozen ⟨rfl, rfl, rfl, fun _ => rfl, rfl, rfl, rfl⟩⟩

theorem shut_notify (id : RequestId) (status : ResponseStatusCode) (extensions : List Extension) :
    ShutKeeps x (notify id status extensions) :=
  keeps_notify shut_logic (fun _ => .of_frozen ⟨rfl, rfl, rfl, fun _ => rfl, rfl, rfl, rfl⟩) fun _ _ =>
    shut_call _

/-! ## Closing -/

/-- The endpoint is given up with its requests, and the rest is as it was. -/
structure GivenUp (s t : PeerContext) : Prop where
  closed : t.closed = s.closed
  localIds : t.localRequestIds = .empty
  endpoint : t.requestsEndpoint = none
  streams (st : StreamPtr) : t.streams.contains st = s.streams.contains st
  remote : t.remoteRequestsStreams = s.remoteRequestsStreams
  closeStatus : t.closeStatus = s.closeStatus

theorem givenUp_closeLocalRequests (hc : x.1.closed = true) (hremote : x.1.remoteRequestsStreams = .empty)
    (hep : x.1.requestsEndpoint.isSome = true) (status : ResponseStatusCode) :
    Meets ShutRely (fun _ y => y.1.Coherent) (fun _ z => GivenUp x.1 z.1) (closeLocalRequests status x.1)
      x.2 := by
  let emptied : PeerContext := { x.1 with localRequestIds := .empty }
  have hloop : ShutKeeps (emptied, x.2) (x.1.localRequestIds.keys.forM fun id => notify id status []) :=
    shut_logic.forM fun id _ _ _ => shut_notify id status []
  refine Meets.get (Meets.modify (Meets.seq ((hloop (.inr ⟨hc, hremote, hep⟩)).mono fun _ z hz => ?_)))
  have hf := hz.frozen hc
  exact ⟨hf.closed, hf.localIds, rfl, hf.streams, hf.remote, hf.closeStatus⟩

/-- The context is marked as closed, and only these streams are left. -/
structure Closedown (status : ResponseStatusCode) (left : List StreamPtr) (s : PeerContext) : Prop where
  closed : s.closed = true
  closeStatus : s.closeStatus = status
  remote : s.remoteRequestsStreams = .empty
  left {st : StreamPtr} : s.streams.contains st = true → st ∈ left
  reachable {id : RequestId} : s.localRequestIds.contains id = true → s.requestsEndpoint.isSome = true

theorem GivenUp.closedown {status : ResponseStatusCode} {left : List StreamPtr} (h : GivenUp s t)
    (hs : Closedown status left s) : Closedown status left t where
  closed := h.closed.trans hs.closed
  closeStatus := h.closeStatus.trans hs.closeStatus
  remote := h.remote.trans hs.remote
  left hst := hs.left ((h.streams _).symm.trans hst)
  reachable hid := by
    rw [h.localIds] at hid
    cases hid

theorem withoutStream_endpoint (s : PeerContext) (stream : StreamPtr) :
    (s.withoutStream stream).endpointStream = s.endpointStream :=
  (Silent.dropRemoteRequests s stream).endpoint

theorem Closedown.withoutStream {status : ResponseStatusCode} {stream : StreamPtr}
    {left : List StreamPtr} (h : Closedown status (stream :: left) s) :
    Closedown status left (s.withoutStream stream) := by
  have hdrop := Silent.dropRemoteRequests s stream
  refine ⟨hdrop.closed.trans h.closed, ?_, OrdMap.ext_find? fun id => ?_, fun {st} hst => ?_, fun hid => ?_⟩
  · refine (?_ : (s.dropRemoteRequests stream).closeStatus = s.closeStatus).trans h.closeStatus
    unfold dropRemoteRequests
    split <;> rfl
  · refine (dropRemoteRequests_find? s stream id).trans ?_
    rw [h.remote]
    split <;> rfl
  · have hin : (s.streams.erase stream).contains st = true := hst
    rw [OrdMap.contains_erase, Bool.and_eq_true, Bool.not_eq_true', decide_eq_false_iff_not] at hin
    exact (List.mem_cons.mp (h.left hin.2)).resolve_left hin.1
  · rw [← endpointStream_isSome, withoutStream_endpoint, endpointStream_isSome]
    exact h.reachable (hdrop.localIds ▸ hid)

theorem closedown_removeStream {status : ResponseStatusCode} {stream : StreamPtr} {left : List StreamPtr}
    (h : Closedown status (stream :: left) x.1) :
    Meets ShutRely (fun _ y => y.1.Coherent) (fun _ z => Closedown status left z.1)
      (removeStream stream status x.1) x.2 := by
  refine Meets.get (Meets.ite (fun _ => Meets.modify (Meets.ite (fun hep => ?_) fun _ => h.withoutStream))
    fun hout => ?_)
  · have hafter := h.withoutStream
    have hsome : (x.1.withoutStream stream).requestsEndpoint.isSome = true := by
      obtain ⟨ep, hep', -⟩ := Option.bind_eq_some_iff.mp hep
      rw [← endpointStream_isSome, withoutStream_endpoint, endpointStream_isSome, hep']
      rfl
    exact (givenUp_closeLocalRequests (x := (x.1.withoutStream stream, x.2)) hafter.closed hafter.remote
      hsome status).mono fun _ z hz => hz.closedown hafter
  · refine ⟨h.closed, h.closeStatus, h.remote, fun {st} hst => ?_, h.reachable⟩
    refine (List.mem_cons.mp (h.left hst)).resolve_left ?_
    rintro rfl
    exact hout hst

/-- All streams are gone, and with them or after them the endpoint. -/
theorem Closedown.shut {status : ResponseStatusCode} (h : Closedown status [] s)
    (hep : s.requestsEndpoint = none) : s.Shut where
  closed := h.closed
  streams := (OrdMap.eq_empty_iff _).mpr fun st =>
    Bool.eq_false_iff.mpr fun hst => List.not_mem_nil (h.left hst)
  localIds := (OrdMap.eq_empty_iff _).mpr fun id => Bool.eq_false_iff.mpr fun hid => by
    have hsome := h.reachable hid
    rw [hep] at hsome
    cases hsome
  remote := h.remote
  endpoint := hep

/-- The last step of `close`. -/
theorem settled_announce {status : ResponseStatusCode} (hshut : x.1.Shut) (hst : x.1.closeStatus = status) :
    Meets ShutRely (fun _ y => y.1.Coherent) (fun _ z => z.1.Settled ∧ z.1.closed = true)
      ((if status ≠ .rejectedLocally then
          Prog.modify fun s : PeerContext => { s with timer := .peerClosed }
        else Prog.call (.peerClosed .rejectedLocally)) x.1) x.2 := by
  have hsettled (t : PeerContext) (ht : t.Shut) (ha : t.Announced) : t.Settled :=
    ⟨fun _ => ⟨ht, ha⟩, fun hc => absurd hc ht.not_open⟩
  refine Meets.ite (fun _ => ?_) fun hrej => ?_
  · have hset : Shut { x.1 with timer := .peerClosed } :=
      ⟨hshut.closed, hshut.streams, hshut.localIds, hshut.remote, hshut.endpoint⟩
    exact ⟨hsettled _ hset fun _ => rfl, hset.closed⟩
  · have hdone := hsettled x.1 hshut fun hne => absurd hst fun he => hrej (he ▸ hne)
    refine ⟨.inl hdone, fun z hz => ⟨hz.keeps hdone, ?_⟩⟩
    exact (hz.frozen hshut.closed).closed.trans hshut.closed

/-- When `close` returns nothing is left. -/
theorem settled_close (hopen : x.1.closed = false) (hs : x.1.Settled) (status : ResponseStatusCode) :
    Meets ShutRely (fun _ y => y.1.Coherent) (fun _ z => z.1.Settled ∧ z.1.closed = true)
      (close status x.1) x.2 := by
  have hstart : Closedown status x.1.streams.keys
      { x.1 with closeStatus := status, closed := true, remoteRequestsStreams := .empty } := by
    refine ⟨rfl, rfl, rfl, fun {st} hst => (OrdMap.mem_keys_iff _ st).mpr hst, fun hid => ?_⟩
    obtain ⟨o, ho, -⟩ := hs.live hopen hid
    exact (endpointStream_isSome x.1).symm.trans (by rw [ho]; rfl)
  refine Meets.get (Meets.ite (fun _ => Meets.modify (Meets.seq ?_)) fun hc => absurd hopen hc)
  refine (Meets.forM (I := fun left y => Closedown status left y.1) (Q := fun y => Closedown status [] y.1)
    (fun st left y hy => closedown_removeStream hy) (fun _ hy => hy) x.1.streams.keys (_, x.2)
    hstart).mono fun _ y hy => ?_
  refine Meets.get (Meets.seq (Meets.ite (fun hsome => ?_) fun hnone => ?_))
  · refine (givenUp_closeLocalRequests hy.closed hy.remote hsome status).mono fun _ z hz => ?_
    have hz' := hz.closedown hy
    exact settled_announce (hz'.shut hz.endpoint) hz'.closeStatus
  · exact settled_announce (hy.shut (Option.not_isSome_iff_eq_none.mp hnone)) hy.closeStatus

theorem shut_close (status : ResponseStatusCode) : ShutKeeps x (close status) := by
  cases hopen : x.1.closed with
  | true =>
    refine Keeps.get (Keeps.ite (fun hc => ?_) fun _ => Keeps.pure shut_rely ())
    rw [hopen] at hc
    cases hc
  | false =>
    intro hx
    refine (settled_close hopen (hx.settled hopen) status).mono fun _ y hy => ⟨fun hc => ?_, fun _ _ => hy.1, fun _ _ =>
      .inr hy.2⟩
    rw [hopen] at hc
    cases hc

theorem shut_rules : WriteRules (fun x p => ShutKeeps x p) ShutRely
    fun x t => x.1.Coherent → ShutRely x (t, x.2) where
  toLogic := shut_logic
  plain h _ := .of_frozen (.of_plain h)
  close _ := shut_close _

/-! ## While a feedback is being called -/

theorem Settled.no_ids (hs : s.Settled) (hopen : s.closed = false) (hdead : ¬s.EndpointLive)
    (id : RequestId) : s.localRequestIds.contains id = false :=
  Bool.eq_false_iff.mpr fun hid => hdead (hs.live hopen hid)

theorem Settled.of_open (hopen : t.closed = false)
    (hlive : ∀ id, t.localRequestIds.contains id = true → t.EndpointLive) : t.Settled where
  shut hc := by
    rw [hopen] at hc
    cases hc
  live {id} _ := hlive id

theorem needToConnect_same (s : PeerContext) :
    s.needToConnect.1.closed = s.closed ∧ s.needToConnect.1.localRequestIds = s.localRequestIds := by
  unfold needToConnect
  split
  · exact ⟨rfl, rfl⟩
  · split
    · exact ⟨rfl, rfl⟩
    · rename_i stream ctx rest hentries
      exact ⟨(Plain.createMessageQueue s stream ctx).closed, (Plain.createMessageQueue s stream ctx).localIds⟩

theorem shut_needToConnect (ht : x.1.Timely .needToConnect) (_ : x.1.Coherent) :
    ShutRely x (x.1.needToConnect.1, x.2) := by
  cases hep : x.1.requestsEndpoint with
  | some ep =>
    have hsame : x.1.needToConnect.1 = x.1 := by
      unfold needToConnect
      rw [hep]
    rw [hsame]
    exact shut_rely.refl x
  | none =>
    have hopen : x.1.closed = false := ht.resolve_right fun h => by
      rw [hep] at h
      cases h
    have hdead : x.1.endpointStream = none := by
      rw [endpointStream, hep]
      rfl
    obtain ⟨hclosed, hids⟩ := needToConnect_same x.1
    refine ⟨fun hc => ?_, fun _ hs => .of_open (hclosed.trans hopen) fun id hid => ?_, fun _ hd => ?_⟩
    · rw [hopen] at hc
      cases hc
    · obtain ⟨o, ho, -⟩ := hs.live hopen (hids ▸ hid)
      exact absurd (hdead.symm.trans ho) (Option.some_ne_none o).symm
    · obtain ⟨st, hst, -⟩ := hd
      exact absurd (hdead.symm.trans hst) (Option.some_ne_none _).symm

/-- A request that is taken is accepted when it comes in time. -/
theorem Timely.accepts {id : RequestId} {body : Bytes} (ht : s.Timely (.enqueueRequest id body))
    (hopen : s.closed = false) (htaken : s.takes body = true) : s.accepts body = true := by
  have hall := ht.resolve_left fun hc => by
    rw [hopen] at hc
    cases hc
  cases hep : s.requestsEndpoint with
  | none =>
    rw [takes, hep] at htaken
    cases htaken
  | some ep =>
    rw [hep, Option.all_some, Bool.or_eq_true] at hall
    refine hall.resolve_left fun hfull => ?_
    simp only [takes, hep, hfull, Bool.not_true, Bool.false_and, Bool.false_eq_true] at htaken

theorem Timely.takes {id : RequestId} {body : Bytes} (ht : s.Timely (.enqueueRequest id body)) :
    s.closed = true ∨
      s.requestsEndpoint.all (fun ep => ep.overflows s.queues body || s.takes body) = true := by
  refine ht.imp_right fun hall => ?_
  cases hep : s.requestsEndpoint with
  | none => rfl
  | some ep =>
    rw [hep, Option.all_some, Bool.or_eq_true] at hall
    rw [Option.all_some, Bool.or_eq_true]
    exact hall.imp_right fun h => (Bool.and_eq_true_iff.mp h).1

theorem shut_enqueueRequest {id : RequestId} {body : Bytes} (ht : x.1.Timely (.enqueueRequest id body)) :
    ShutKeeps x (enqueueRequest id body) := by
  refine keeps_enqueueRequest_of_takes shut_rules ht.takes
    (fun _ => .of_frozen ⟨rfl, rfl, rfl, fun _ => rfl, rfl, rfl, rfl⟩) (fun _ => shut_notify _ _ _)
    fun t hopen htaken hplain _ => ?_
  have hlive : x.1.EndpointLive := accepts_live (ht.accepts hopen htaken)
  refine ⟨fun hc => ?_, fun _ _ => .of_open (hplain.closed.trans hopen) fun _ _ => ?_, fun _ hd => ?_⟩
  · exact absurd (hopen.symm.trans hc) Bool.false_ne_true
  · exact hplain.toSilent.live (s := noteRequest id x.1) hlive
  · exact absurd hd hlive.not_doomed

theorem shut_cancelRequest (id : RequestId) (body : Bytes) : ShutKeeps x (cancelRequest id body) := by
  refine keeps_cancelRequest shut_rules body
    (fun _ => .of_frozen ⟨rfl, rfl, rfl, fun _ => rfl, rfl, rfl, rfl⟩) fun hopen _ => ?_
  refine ⟨fun hc => ?_, fun _ hs => .of_open hopen fun id' hid => ?_, fun _ hd => .inl hd⟩
  · exact absurd (hopen.symm.trans hc) Bool.false_ne_true
  · rw [contains_eraseLocalId, Bool.and_eq_true] at hid
    exact hs.live hopen hid.2

/-- What the network may start while a feedback is being called. -/
theorem shut_reentrant {o : Op} (ho : o.reentrant = true) (ht : x.1.Timely o) : ShutKeeps x (op o) := by
  cases o with
  | needToConnect => exact Keeps.modify (shut_needToConnect ht)
  | enqueueRequest id body => exact shut_enqueueRequest ht
  | cancelRequest id body => exact shut_cancelRequest id body
  | close status => exact shut_close status
  | setOutboundAddress _ | addBlockToResponse _ _ _ | sendResponse _ _ _ | keepAlive | world _ =>
    exact keeps_op shut_rules rfl rfl
  | _ => cases ho

/-! ## Events -/

theorem settled_rely : Rely ShutRely (fun x y => x.1.Settled → y.1.Settled) fun x => x.1.Settled where
  refl _ h := h
  trans h h' hx := h' (h hx)
  absorb h hx := h.keeps hx
  stable hx h := h hx

/-- Programs that the streams and the scheduler start. -/
abbrev SettledKeeps (x : Trace PeerContext Call) {α : Type} (p : Action α) : Prop :=
  Keeps ShutRely (fun x y => x.1.Settled → y.1.Settled) (fun _ y => y.1.Coherent) (fun x => x.1.Settled) x p

theorem ShutKeeps.top {α : Type} {p : Action α} (h : ShutKeeps x p) : SettledKeeps x p := fun hx =>
  (h (.inl hx)).mono fun _ _ hy => hy.keeps

/-- A closed context that is settled has no stream. -/
theorem Settled.open_of_stream (hs : s.Settled) {stream : StreamPtr} {ctx : StreamCtx}
    (hfind : s.streams.find? stream = some ctx) : s.closed = false := by
  cases hc : s.closed with
  | false => rfl
  | true =>
    rw [(hs.shut hc).1.no_stream] at hfind
    cases hfind

theorem Settled.silent (hs : s.Settled) (hopen : s.closed = false) (h : Silent s t) : t.Settled :=
  .of_open (h.closed.trans hopen) fun _ hid => h.live (hs.live hopen (h.localIds ▸ hid))

theorem Settled.withoutStream (hs : s.Settled) (hopen : s.closed = false) {stream : StreamPtr}
    (hep : s.requestsEndpoint.bind OutboundEndpoint.getStream ≠ some stream) :
    (s.withoutStream stream).Settled := by
  have hdrop := Silent.dropRemoteRequests s stream
  refine .of_open (hdrop.closed.trans hopen) fun id hid => ?_
  obtain ⟨o, ho, hlive⟩ := hs.live hopen (hdrop.localIds ▸ hid)
  refine ⟨o, (withoutStream_endpoint s stream).trans ho, fun st hst => ?_⟩
  have hne : st ≠ stream := by
    rintro rfl
    obtain ⟨ep, hsome, hget⟩ := Option.map_eq_some_iff.mp ho
    exact hep (by rw [hsome, Option.bind_some, hget]; exact hst)
  exact (OrdMap.contains_erase _ _ _).trans (by simp [hne, hlive st hst])

/-- Whatever the feedbacks do meanwhile, what was entered for the endpoint that is given up is gone
with it. -/
theorem settled_closeLocalRequests (hopen : x.1.closed = false) (hdoomed : x.1.Doomed)
    (status : ResponseStatusCode) :
    Meets ShutRely (fun _ y => y.1.Coherent) (fun _ z => z.1.Settled) (closeLocalRequests status x.1)
      x.2 := by
  let emptied : PeerContext := { x.1 with localRequestIds := .empty }
  have hempty : emptied.Settled := .of_open hopen fun _ hid => (by cases hid)
  have hloop : ShutKeeps (emptied, x.2) (x.1.localRequestIds.keys.forM fun id => notify id status []) :=
    shut_logic.forM fun id _ _ _ => shut_notify id status []
  refine Meets.get (Meets.modify (Meets.seq ((hloop (.inl hempty)).mono fun _ z hz => ?_)))
  have hsettled := hz.settled hopen hempty
  cases hc : z.1.closed with
  | true =>
    obtain ⟨hshut, htimer⟩ := hsettled.shut hc
    exact ⟨fun _ => ⟨⟨hc, hshut.streams, hshut.localIds, hshut.remote, rfl⟩, htimer⟩, fun ho =>
      absurd (hc.symm.trans ho) Bool.true_eq_false_eq_False⟩
  | false =>
    have hstill : z.1.Doomed := (hz.doomed hopen hdoomed).resolve_right (Bool.eq_false_iff.mp hc)
    refine .of_open hc fun id hid => ?_
    exact absurd hstill (hsettled.live hc hid).not_doomed

theorem settled_removeStream (stream : StreamPtr) (status : ResponseStatusCode) :
    SettledKeeps x (removeStream stream status) := by
  refine Keeps.get (Keeps.ite (fun hin => fun hs => ?_) fun _ => Keeps.pure settled_rely ())
  obtain ⟨ctx, hfind⟩ := Option.isSome_iff_exists.mp hin
  have hopen := hs.open_of_stream hfind
  have hafter : (x.1.withoutStream stream).closed = false :=
    (Silent.dropRemoteRequests x.1 stream).closed.trans hopen
  refine Meets.modify (Meets.ite (fun hep => ?_) fun hep => ?_)
  · have hdoomed : (x.1.withoutStream stream).Doomed := by
      obtain ⟨ep, hsome, hget⟩ := Option.bind_eq_some_iff.mp hep
      refine ⟨stream, (withoutStream_endpoint x.1 stream).trans ?_, ?_⟩
      · rw [endpointStream, hsome, Option.map_some, hget]
      · exact (OrdMap.contains_erase _ _ _).trans (by simp)
    exact (settled_closeLocalRequests (x := (x.1.withoutStream stream, x.2)) hafter hdoomed status).mono
      fun _ _ hz _ => hz
  · exact fun _ => hs.withoutStream hopen hep

theorem settled_rules : StreamRules (fun x p => SettledKeeps x p) (fun x y => x.1.Settled → y.1.Settled)
    fun x t => x.1.Settled → x.1.Settled → t.Settled where
  toLogic := settled_rely.logic
  plain h _ hs := (Frozen.of_plain h).settled hs
  close _ := (shut_close _).top
  quiet _ := (shut_call _).top
  removeStream stream _ _ := settled_removeStream stream _

theorem settled_eraseLocalId (hs : s.Settled) (id : RequestId) : (eraseLocalId id s).Settled where
  shut hc := ⟨(hs.shut hc).1.eraseLocalId id, (hs.shut hc).2⟩
  live hopen hid := by
    rw [contains_eraseLocalId, Bool.and_eq_true] at hid
    exact hs.live hopen hid.2

theorem settled_dropRemoteRequests (hs : s.Settled) (stream : StreamPtr) :
    (s.dropRemoteRequests stream).Settled := by
  cases hc : s.closed with
  | true =>
    rw [(hs.shut hc).1.dropRemoteRequests]
    exact hs
  | false => exact hs.silent hc (Silent.dropRemoteRequests s stream)

theorem settled_onRequest (stream : StreamPtr) (request : Message.Request) :
    SettledKeeps x (onRequest stream request) := by
  refine keeps_onRequest settled_rules.toWriteRules (fun ctx _ hfind _ hs => ?_)
    (fun y ctx hfind _ _ hs => ?_) fun _ _ => (shut_call _).top
  · exact hs.silent (hs.open_of_stream hfind) ⟨rfl, rfl, rfl, rfl, rfl, rfl, rfl,
      Silent.contains_insert (OrdMap.contains_of_find? hfind) _⟩
  · exact hs.silent (hs.open_of_stream hfind) (Silent.acceptRequest (OrdMap.contains_of_find? hfind) ctx _)

/-- One case for each operation that may start at top level. -/
theorem settled_op {o : Op} (ht : x.1.Timely o) : SettledKeeps x (op o) := by
  cases o with
  | windowAdjusted stream result =>
    refine keeps_onWindowAdjusted settled_rules.toWriteRules fun hres hin => ?_
    subst hres
    obtain ⟨hopen, hflush⟩ := ht hin
    obtain ⟨t, hrun, hclosed, hids, hlive⟩ :=
      finishStreamConfig_open (s := { x.1 with adjusting := x.1.adjusting.erase stream }) hopen hflush
    refine settled_rules.straight hrun fun _ hs => .of_open hclosed fun id hid => hlive ?_
    exact hs.live hopen (hids ▸ hid)
  | readerEvent stream msg =>
    refine keeps_onReaderEvent settled_rules (fun _ hs => settled_dropRemoteRequests hs stream)
      (fun _ _ _ item _ y _ => settled_onRequest stream item) fun y item => ?_
    exact keeps_onResponse settled_rules.toLogic (fun _ hs => settled_eraseLocalId hs item.id) fun _ =>
      (shut_notify _ _ _).top
  | timer => exact keeps_onTimer settled_rules
  | streamConnected rstream => exact keeps_op settled_rules.toWriteRules rfl rfl
  | streamAccepted stream => exact keeps_op settled_rules.toWriteRules rfl rfl
  | messageWritten stream res => exact keeps_op settled_rules.toWriteRules rfl rfl
  | _ => exact (shut_reentrant rfl ht).top

/-! ## Every step after the closing -/

/-- Nothing is left, and if `told` holds the network is still to be told. -/
def ShutFor (told : Prop) (s : PeerContext) : Prop := s.Shut ∧ (told → s.timer = .peerClosed)

variable {told : Prop}

abbrev ShutSteady (told : Prop) (x : Trace PeerContext Call) {α : Type} (p : Action α) : Prop :=
  Steady (ShutFor told) x p

theorem steady_logic : Logic (fun x p => ShutSteady told x p) (fun _ _ => True)
    fun x t => ShutFor told x.1 → ShutFor told t := Steady.logic

theorem steady_notify (id : RequestId) (status : ResponseStatusCode) (extensions : List Extension) :
    ShutSteady told x (notify id status extensions) :=
  keeps_notify steady_logic (fun h => ⟨h.1.of_same rfl (fun _ => rfl) rfl rfl rfl, h.2⟩) fun _ _ =>
    Steady.call _

theorem steady_closeLocalRequests (status : ResponseStatusCode) :
    ShutSteady told x (closeLocalRequests status) :=
  keeps_closeLocalRequests steady_logic
    (fun h => ⟨⟨h.1.closed, h.1.streams, rfl, h.1.remote, h.1.endpoint⟩, h.2⟩)
    (fun _ id => steady_notify id status [])
    fun _ h => ⟨⟨h.1.closed, h.1.streams, h.1.localIds, h.1.remote, rfl⟩, h.2⟩

theorem steady_removeStream (stream : StreamPtr) (status : ResponseStatusCode) :
    ShutSteady told x (removeStream stream status) := by
  refine keeps_removeStream steady_logic (fun hin h => ?_) fun _ => steady_closeLocalRequests status
  rw [OrdMap.contains, h.1.no_stream] at hin
  cases hin

theorem steady_close (status : ResponseStatusCode) : ShutSteady told x (close status) :=
  keeps_close steady_logic (fun hopen h => absurd hopen h.1.not_open)
    (fun _ stream => steady_removeStream stream status) (fun _ => steady_closeLocalRequests status)
    (fun _ h => ⟨⟨h.1.closed, h.1.streams, h.1.localIds, h.1.remote, h.1.endpoint⟩, fun _ => rfl⟩)
    fun _ => Steady.call _

theorem steady_rules : StreamRules (fun x p => ShutSteady told x p) (fun _ _ => True)
    fun x t => ShutFor told x.1 → ShutFor told t where
  toLogic := steady_logic
  plain hp h := ⟨h.1.plain hp, fun ht => hp.timer.trans (h.2 ht)⟩
  close _ := steady_close _
  quiet _ := Steady.call _
  removeStream _ _ _ := steady_removeStream _ _

theorem steady_op {o : Op} (ht : x.1.Timely o) : ShutSteady told x (op o) := by
  have hdrop (stream : StreamPtr) (h : ShutFor told x.1) : ShutFor told (x.1.dropRemoteRequests stream) := by
    rw [h.1.dropRemoteRequests]
    exact h
  have hnone {y : Trace PeerContext Call} {stream : StreamPtr} {ctx : StreamCtx}
      (hfind : y.1.streams.find? stream = some ctx) (h : ShutFor told y.1) : False := by
    rw [h.1.no_stream] at hfind
    cases hfind
  cases o with
  | needToConnect =>
    refine steady_logic.modify fun h => ?_
    rcases ht with hopen | hsome
    · exact absurd hopen h.1.not_open
    · rw [h.1.endpoint] at hsome
      cases hsome
  | enqueueRequest id body =>
    exact keeps_enqueueRequest_of_takes steady_rules.toWriteRules ht.takes
      (fun h => ⟨h.1.of_same rfl (fun _ => rfl) rfl rfl rfl, h.2⟩) (fun _ => steady_notify _ _ _)
      fun t hopen _ _ h => absurd hopen h.1.not_open
  | cancelRequest id body =>
    exact keeps_cancelRequest steady_rules.toWriteRules body
      (fun h => ⟨h.1.of_same rfl (fun _ => rfl) rfl rfl rfl, h.2⟩) fun hopen h => absurd hopen h.1.not_open
  | close status => exact steady_close status
  | windowAdjusted stream result =>
    refine keeps_onWindowAdjusted steady_rules.toWriteRules fun hres hin => ?_
    subst hres
    obtain ⟨hopen, hflush⟩ := ht hin
    obtain ⟨t, hrun, -, -, -⟩ :=
      finishStreamConfig_open (s := { x.1 with adjusting := x.1.adjusting.erase stream }) hopen hflush
    exact steady_logic.straight hrun fun h => absurd hopen h.1.not_open
  | readerEvent stream msg =>
    refine keeps_onReaderEvent steady_rules (hdrop stream) (fun _ _ _ item _ y _ => ?_) fun y item => ?_
    · exact keeps_onRequest steady_rules.toWriteRules (fun _ _ hfind h => (hnone hfind h).elim)
        (fun _ _ hfind _ h => (hnone hfind h).elim) fun _ _ => Steady.call _
    · exact keeps_onResponse steady_logic (fun h => ⟨h.1.eraseLocalId item.id, h.2⟩) fun _ =>
        steady_notify _ _ _
  | timer => exact keeps_onTimer steady_rules
  | _ => exact keeps_op steady_rules.toWriteRules rfl rfl

/-! ## Runs -/

def TimelyMove (c : Config PeerContext Call) : Move Op → Prop
  | .invoke o => c.state.Timely o
  | .ret => True

instance (c : Config PeerContext Call) (m : Move Op) : Decidable (TimelyMove c m) :=
  match m with
  | .invoke o => inferInstanceAs (Decidable (c.state.Timely o))
  | .ret => inferInstanceAs (Decidable True)

/-- What holds while these calls are pending. -/
def Shutting (stack : List Call) (x : Trace PeerContext Call) : Prop :=
  x.1.Coherent ∧ (stack = [] → x.1.Settled)

theorem shutting_of_run {peer : PeerId} {feedbacks : List InstanceId} {world : World}
    {ms : List (Move Op)} {c : Config PeerContext Call}
    (hok : Runs.EveryStep step TimelyMove (Config.start (create peer feedbacks world)) ms)
    (hr : Runs.run step (Config.start (create peer feedbacks world)) ms = some c) :
    Shutting c.pending (c.state, c.calls) := by
  have hsettled : (create peer feedbacks world).Settled := .of_open rfl fun _ hid => (by cases hid)
  have hsound := Sound.run (R := ShutRely) (V := Shutting) shut_rely.refl (fun _ _ _ => ShutRely.trans)
    (fun _ _ _ hx hxy => ⟨hx.1.moved hxy, fun hst => hxy.keeps (hx.2 hst)⟩)
    (fun c o ho hen hV => ?_) (.start ⟨.inl hsettled, fun _ => hsettled⟩) hok hr
  · exact hsound.valid
  · have hcalls (d : Call) (y : Trace PeerContext Call) (hy : y.1.Coherent) : Shutting (d :: c.pending) y :=
      ⟨hy, fun hst => absurd hst (List.cons_ne_nil d _)⟩
    cases hst : c.pending with
    | nil =>
      have hs := hV.2 hst
      have hkeeps : SettledKeeps (c.state, c.calls) (op o) := settled_op ho
      exact (hkeeps hs).weaken (fun d y hy => hst ▸ hcalls d y hy) fun _ y hy => ⟨.inl (hy hs), fun _ => hy hs⟩
    | cons d rest =>
      have hre : o.reentrant = true := by
        rw [hst] at hen
        simpa [enabled] using hen
      have hkeeps : ShutKeeps (c.state, c.calls) (op o) := shut_reentrant hre ho
      exact (hkeeps hV.1).weaken (fun d' y hy => hst ▸ hcalls d' y hy) fun _ _ hy => hy

theorem steadyFrames_of_run {s₀ : PeerContext} {ms : List (Move Op)} {c : Config PeerContext Call}
    (hok : Runs.EveryStep step TimelyMove (Config.start s₀) ms)
    (hr : Runs.run step (Config.start s₀) ms = some c) : SteadyFrames (ShutFor told) c :=
  (SteadyFrames.run (fun _ _ ht => steady_op ht) (fun _ hf => (by cases hf)) hok hr).1

/-- **A closed context stays closed** in the runs in which nothing arrives too late and every request
that finds room is taken. Once `close` has returned, between the operations, and while a call of
another operation is pending if the endpoint is given up, which `close` does last, nothing is left in
any later state, and the network is still to be told unless the closing was local. -/
theorem closed_stays_closed {peer : PeerId} {feedbacks : List InstanceId} {world : World}
    {ms ms' : List (Move Op)} {c c' : Config PeerContext Call}
    (hok : Runs.EveryStep step TimelyMove (Config.start (create peer feedbacks world)) ms)
    (hr : Runs.run step (Config.start (create peer feedbacks world)) ms = some c)
    (hclosed : c.state.closed = true) (hreturned : c.frames = [] ∨ c.state.requestsEndpoint = none)
    (hok' : Runs.EveryStep step TimelyMove c ms') (hr' : Runs.run step c ms' = some c') :
    c'.state.Shut ∧ (c.state.closeStatus ≠ .rejectedLocally → c'.state.timer = .peerClosed) := by
  obtain ⟨hcoherent, htop⟩ := shutting_of_run hok hr
  have hsettled : c.state.Settled := by
    rcases hreturned with hidle | hnone
    · exact htop (by rw [Config.pending, hidle, List.map_nil])
    · refine hcoherent.resolve_right fun h => ?_
      have hsome := h.2.2
      rw [hnone] at hsome
      cases hsome
  obtain ⟨hshut, htold⟩ := hsettled.shut hclosed
  exact (SteadyFrames.run (fun _ _ ht => steady_op ht) (steadyFrames_of_run hok hr) hok' hr').2 ⟨hshut, htold⟩

/-- A request is made over a stream, and the connection times out. -/
def timedOutRun : List (Move Op) :=
  [.invoke .needToConnect, .invoke (.streamConnected (some 5)), .invoke (.windowAdjusted 5 true),
    .invoke (.enqueueRequest 1 [42]), .invoke (.close .timeout)]

/-- What may still come. -/
def lateRun : List (Move Op) :=
  [.invoke (.cancelRequest 1 [43]), .invoke (.readerEvent 5 none), .invoke (.windowAdjusted 6 true),
    .invoke (.messageWritten 5 .error), .invoke .timer, .ret]

theorem timed_out_stays_closed :
    (Runs.last step (afterRun timedOutRun) lateRun).state.Shut ∧
      ((afterRun timedOutRun).state.closeStatus ≠ .rejectedLocally →
        (Runs.last step (afterRun timedOutRun) lateRun).state.timer = .peerClosed) :=
  closed_stays_closed (by decide +kernel) (Runs.run_last (by decide +kernel)) (by decide +kernel)
    (.inl (List.isEmpty_iff.mp (by decide +kernel))) (by decide +kernel) (Runs.run_last (by decide +kernel))

/-- The connection fails while the window of a stream is being adjusted. -/
def lateStreamRun : List (Move Op) :=
  [.invoke .needToConnect, .invoke (.streamConnected (some 5)), .invoke (.streamConnected none)]

/-- The late stream is added to the closed context and takes the place of the notification; and a
request whose write fails is entered into the context that its failure has closed. -/
theorem late_stream_reopens :
    (Runs.run step (Config.start (create 0 [] quietWorld))
        (lateStreamRun ++ [.invoke (.windowAdjusted 5 true)])).isSome = true ∧
      (afterRun lateStreamRun).frames.isEmpty = true ∧
      (afterRun lateStreamRun).state.closed = true ∧
      (afterRun lateStreamRun).state.timer = .peerClosed ∧
      (afterRun (lateStreamRun ++ [.invoke (.windowAdjusted 5 true)])).state.streams.contains 5 = true ∧
      (afterRun (lateStreamRun ++ [.invoke (.windowAdjusted 5 true)])).state.timer = .streamCleanup ∧
      (afterRun failedWriteRun).frames.isEmpty = true ∧
      (afterRun failedWriteRun).state.closed = true ∧
      (afterRun failedWriteRun).state.localRequestIds.contains 1 = true := by
  decide +kernel

end
end IpfsLite.Graphsync.PeerContext
