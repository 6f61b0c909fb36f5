import IpfsLite.Foundations.ProgramLogic
import IpfsLite.Graphsync.PeerContext

/-! # What the operations of a context have in common

Every function of a context has one rule here, for whatever is judged of programs: it asks what its
own steps and the functions it calls are. Most steps touch neither the tables of requests nor what
the feedbacks are told, so a judgement that admits such steps asks little more. -/
namespace IpfsLite.Graphsync.PeerContext
set_option autoImplicit false

open Reentrant

/-- The steps that leave the requests alone. -/
structure Silent (s t : PeerContext) : Prop where
  feedbacks : t.graphsyncFeedbacks = s.graphsyncFeedbacks
  requested : t.requested = s.requested
  cancelled : t.cancelled = s.cancelled
  reported : t.reported = s.reported
  localIds : t.localRequestIds = s.localRequestIds
  closed : t.closed = s.closed
  endpoint : t.requestsEndpoint.map OutboundEndpoint.getStream =
    s.requestsEndpoint.map OutboundEndpoint.getStream
  streams (st : StreamPtr) : t.streams.contains st = s.streams.contains st

namespace Silent
variable {s t u : PeerContext}

theorem refl (s : PeerContext) : Silent s s := ⟨rfl, rfl, rfl, rfl, rfl, rfl, rfl, fun _ => rfl⟩

theorem trans (h : Silent s t) (h' : Silent t u) : Silent s u :=
  ⟨h'.feedbacks.trans h.feedbacks, h'.requested.trans h.requested, h'.cancelled.trans h.cancelled,
    h'.reported.trans h.reported, h'.localIds.trans h.localIds, h'.closed.trans h.closed,
    h'.endpoint.trans h.endpoint, fun st => (h'.streams st).trans (h.streams st)⟩

theorem setOutboundAddress (s : PeerContext) (connectTo : Option (List Multiaddress)) :
    Silent s (s.setOutboundAddress connectTo) := by
  cases connectTo with
  | none => exact refl s
  | some _ => exact ⟨rfl, rfl, rfl, rfl, rfl, rfl, rfl, fun _ => rfl⟩

theorem setQueue (s : PeerContext) (stream : StreamPtr) (q : MessageQueue) :
    Silent s (s.setQueue stream q) := ⟨rfl, rfl, rfl, rfl, rfl, rfl, rfl, fun _ => rfl⟩

/-- Writing to a stream that is there. -/
theorem contains_insert {streams : OrdMap StreamPtr StreamCtx} {stream : StreamPtr}
    (h : streams.contains stream = true) (ctx : StreamCtx) (st : StreamPtr) :
    (streams.insert stream ctx).contains st = streams.contains st := by
  rw [OrdMap.contains_insert]
  by_cases hst : st = stream
  · subst hst
    simp [h]
  · simp [hst]

theorem setStream {stream : StreamPtr} (h : s.streams.contains stream = true) (ctx : StreamCtx) :
    Silent s (s.setStream stream ctx) :=
  ⟨rfl, rfl, rfl, rfl, rfl, rfl, rfl, contains_insert h ctx⟩

theorem acceptRequest {stream : StreamPtr} (h : s.streams.contains stream = true) (ctx : StreamCtx)
    (id : RequestId) : Silent s (s.acceptRequest stream ctx id) :=
  ⟨rfl, rfl, rfl, rfl, rfl, rfl, rfl, contains_insert h _⟩

theorem dropRemoteRequests (s : PeerContext) (stream : StreamPtr) :
    Silent s (s.dropRemoteRequests stream) := by
  unfold PeerContext.dropRemoteRequests
  cases s.streams.find? stream with
  | none => exact refl s
  | some ctx => exact ⟨rfl, rfl, rfl, rfl, rfl, rfl, rfl, fun st => OrdMap.contains_modify _ _ st _⟩

end Silent

def remoteIds (s : PeerContext) (stream : StreamPtr) : Option (OrdMap RequestId Unit) :=
  (s.streams.find? stream).map StreamCtx.remoteRequestIds

/-- The steps that leave also the peer's requests and the timer alone. -/
structure Plain (s t : PeerContext) : Prop extends Silent s t where
  remote : t.remoteRequestsStreams = s.remoteRequestsStreams
  remoteIds (st : StreamPtr) : t.remoteIds st = s.remoteIds st
  timer : t.timer = s.timer
  closeStatus : t.closeStatus = s.closeStatus

namespace Plain
variable {s t u : PeerContext}

theorem refl (s : PeerContext) : Plain s s := ⟨Silent.refl s, rfl, fun _ => rfl, rfl, rfl⟩

theorem trans (h : Plain s t) (h' : Plain t u) : Plain s u :=
  ⟨h.toSilent.trans h'.toSilent, h'.remote.trans h.remote,
    fun st => (h'.remoteIds st).trans (h.remoteIds st), h'.timer.trans h.timer,
    h'.closeStatus.trans h.closeStatus⟩

/-- Steps that touch no table at all. -/
theorem of_rfl (h : Silent s t) (hremote : t.remoteRequestsStreams = s.remoteRequestsStreams)
    (hstreams : t.streams = s.streams) (htimer : t.timer = s.timer)
    (hstatus : t.closeStatus = s.closeStatus) : Plain s t :=
  ⟨h, hremote, fun st => by rw [PeerContext.remoteIds, hstreams]; rfl, htimer, hstatus⟩

theorem setOutboundAddress (s : PeerContext) (connectTo : Option (List Multiaddress)) :
    Plain s (s.setOutboundAddress connectTo) := by
  have hsilent := Silent.setOutboundAddress s connectTo
  cases connectTo with
  | none => exact refl s
  | some _ => exact of_rfl hsilent rfl rfl rfl rfl

theorem setQueue (s : PeerContext) (stream : StreamPtr) (q : MessageQueue) : Plain s (s.setQueue stream q) :=
  of_rfl (Silent.setQueue s stream q) rfl rfl rfl rfl

theorem setStream {stream : StreamPtr} {c ctx : StreamCtx} (h : s.streams.find? stream = some c)
    (hids : ctx.remoteRequestIds = c.remoteRequestIds) : Plain s (s.setStream stream ctx) := by
  refine ⟨Silent.setStream (OrdMap.contains_of_find? h) ctx, rfl, fun st => ?_, rfl, rfl⟩
  simp only [PeerContext.remoteIds, PeerContext.setStream, OrdMap.find?_insert]
  by_cases hst : st = stream
  · rw [if_pos hst, hst, h, Option.map_some, Option.map_some, hids]
  · rw [if_neg hst]

theorem storeEndpoint {stream : StreamPtr} {c ctx : StreamCtx} (h : s.streams.find? stream = some c)
    (hids : ctx.remoteRequestIds = c.remoteRequestIds) (e : InboundEndpoint) :
    Plain s (s.storeEndpoint stream ctx e) := by
  have hset : Plain s (s.setStream stream { ctx with responseEndpoint := some e.responseBuilder }) :=
    setStream h hids
  exact hset.trans (setQueue _ stream e.queue)

theorem createMessageQueue (s : PeerContext) (stream : StreamPtr) (ctx : StreamCtx) :
    Plain s (createMessageQueue stream ctx s).2 := by
  unfold PeerContext.createMessageQueue
  by_cases hq : ctx.queue = true
  · rw [if_pos hq]
    exact refl s
  · rw [if_neg hq]
    exact setQueue s stream _

theorem createResponseEndpoint (s : PeerContext) (stream : StreamPtr) (ctx : StreamCtx) :
    Plain s (createResponseEndpoint stream ctx s).2 := createMessageQueue s stream ctx

theorem onNewStream (s : PeerContext) (stream : StreamPtr) : Plain s (s.onNewStream stream) := by
  unfold PeerContext.onNewStream
  by_cases h : s.streams.contains stream = true
  · rw [if_pos h]
    exact refl s
  · rw [if_neg h]
    exact of_rfl ⟨rfl, rfl, rfl, rfl, rfl, rfl, rfl, fun _ => rfl⟩ rfl rfl rfl rfl

theorem shiftExpireTime (s : PeerContext) (stream : StreamPtr) : Plain s (s.shiftExpireTime stream) := by
  refine ⟨⟨rfl, rfl, rfl, rfl, rfl, rfl, rfl, fun st => OrdMap.contains_modify _ _ st _⟩, rfl,
    fun st => ?_, rfl, rfl⟩
  simp only [PeerContext.remoteIds, PeerContext.shiftExpireTime, OrdMap.find?_modify]
  by_cases hst : st = stream
  · rw [if_pos hst, hst, Option.map_map]
    rfl
  · rw [if_neg hst]

theorem extendExpireTimes (s : PeerContext) :
    Plain s { s with streams := s.streams.mapValues s.extendExpireTime } := by
  refine ⟨⟨rfl, rfl, rfl, rfl, rfl, rfl, rfl, fun st => OrdMap.contains_mapValues _ _ st⟩, rfl,
    fun st => ?_, rfl, rfl⟩
  have hids (ctx : StreamCtx) : (s.extendExpireTime st ctx).remoteRequestIds = ctx.remoteRequestIds := by
    unfold PeerContext.extendExpireTime
    split <;> rfl
  simp only [PeerContext.remoteIds, OrdMap.find?_mapValues, Option.map_map]
  exact congrArg (fun f => (s.streams.find? st).map f) (funext hids)

end Plain

theorem createMessageQueue_ids (s : PeerContext) (stream : StreamPtr) (ctx : StreamCtx) :
    (createMessageQueue stream ctx s).1.remoteRequestIds = ctx.remoteRequestIds ∧
      (createMessageQueue stream ctx s).2.streams = s.streams := by
  unfold createMessageQueue
  by_cases hq : ctx.queue = true
  · rw [if_pos hq]
    exact ⟨rfl, rfl⟩
  · rw [if_neg hq]
    exact ⟨rfl, rfl⟩

theorem createResponseEndpoint_ids (s : PeerContext) (stream : StreamPtr) (ctx : StreamCtx) :
    (createResponseEndpoint stream ctx s).1.remoteRequestIds = ctx.remoteRequestIds ∧
      (createResponseEndpoint stream ctx s).2.streams = s.streams := createMessageQueue_ids s stream ctx

/-- The message fits, and the write that it starts, if it starts one, does not fail at once. -/
def takes (s : PeerContext) (body : Bytes) : Bool :=
  match s.requestsEndpoint with
  | none => false
  | some ep =>
    !ep.overflows s.queues body &&
      match ep with
      | .connecting _ _ => true
      | .connected st => !((s.queues st).enqueue (s.world.closedForWrite st) body).2

/-- A message that is taken is written or buffered, and nobody is called. -/
theorem enqueue_of_takes {s : PeerContext} {ep : OutboundEndpoint} {body : Bytes}
    (hep : s.requestsEndpoint = some ep) (h : s.takes body = true) :
    ep.overflows s.queues body = false ∧ ∃ t, enqueue ep body s = .done () t ∧ Plain s t := by
  simp only [takes, hep, Bool.and_eq_true, Bool.not_eq_true'] at h
  refine ⟨h.1, ?_⟩
  unfold enqueue
  by_cases hb : body = []
  · exact ⟨s, by rw [if_pos hb]; rfl, Plain.refl s⟩
  · rw [if_neg hb]
    cases ep with
    | connecting buffers bytes =>
      refine ⟨_, rfl, .of_rfl ⟨rfl, rfl, rfl, rfl, rfl, rfl, ?_, fun _ => rfl⟩ rfl rfl rfl rfl⟩
      rw [hep]
      rfl
    | connected st =>
      have hwritten := h.2
      simp only [Bool.not_eq_true'] at hwritten
      refine ⟨setQueue st ((s.queues st).enqueue (s.world.closedForWrite st) body).1 s, ?_,
        Plain.setQueue s st _⟩
      simp only [writeTo, Prog.bind_apply, Prog.get_apply, Prog.modify_apply, Res.bind_done, hwritten,
        Bool.false_eq_true, if_false, Prog.pure_apply]

/-! ## The rules -/

section
variable {K : ∀ {α : Type}, Trace PeerContext Call → Action α → Prop}
  {G : Trace PeerContext Call → Trace PeerContext Call → Prop}
  {S : Trace PeerContext Call → PeerContext → Prop} {x : Trace PeerContext Call}

/-! ### Reporting and closing -/

theorem keeps_notify (h : Logic K G S) {id : RequestId} {status : ResponseStatusCode}
    {extensions : List Extension} (hnote : S x (noteReport id status x.1))
    (hcall : ∀ y fb, K y (Prog.call (.onResponse fb id status extensions))) :
    K x (notify id status extensions) :=
  h.modify_bind hnote (h.get (h.forM fun fb _ y _ => hcall y fb))

theorem keeps_closeLocalRequests (h : Logic K G S) {status : ResponseStatusCode}
    (hempty : S x { x.1 with localRequestIds := .empty })
    (hnotify : ∀ y id, K y (notify id status []))
    (hreset : ∀ y : Trace PeerContext Call, S y { y.1 with requestsEndpoint := none }) :
    K x (closeLocalRequests status) :=
  h.get (h.modify_bind hempty (h.bind (h.forM fun id _ y _ => hnotify y id) fun _ y _ => h.modify (hreset y)))

theorem keeps_removeStream (h : Logic K G S) {stream : StreamPtr} {status : ResponseStatusCode}
    (herase : x.1.streams.contains stream = true →
      S x { x.1.dropRemoteRequests stream with streams := x.1.streams.erase stream })
    (hclose : ∀ y, K y (closeLocalRequests status)) : K x (removeStream stream status) := by
  refine h.get (Logic.ite (fun hin => h.modify_bind (herase hin) ?_) fun _ => h.pure ())
  exact Logic.ite (fun _ => hclose _) fun _ => h.pure ()

theorem keeps_close (h : Logic K G S) {status : ResponseStatusCode}
    (hmark : x.1.closed = false →
      S x { x.1 with closeStatus := status, closed := true, remoteRequestsStreams := .empty })
    (hremove : ∀ y stream, K y (removeStream stream status)) (hclose : ∀ y, K y (closeLocalRequests status))
    (hset : ∀ y : Trace PeerContext Call, S y { y.1 with timer := .peerClosed })
    (hcall : ∀ y, K y (Prog.call (.peerClosed .rejectedLocally))) : K x (close status) := by
  refine h.get (Logic.ite (fun hopen => h.modify_bind (hmark hopen) ?_) fun _ => h.pure ())
  refine h.bind (h.forM fun stream _ y _ => hremove y stream) fun _ y _ => h.get ?_
  refine h.bind (h.when fun _ => hclose y) fun _ z _ => ?_
  exact Logic.ite (fun _ => h.modify (hset z)) fun _ => hcall z

/-! ### Writing -/

/-- What is asked of the judgement for writing, which may close. -/
structure WriteRules (K : ∀ {α : Type}, Trace PeerContext Call → Action α → Prop)
    (G : Trace PeerContext Call → Trace PeerContext Call → Prop)
    (S : Trace PeerContext Call → PeerContext → Prop) : Prop extends Logic K G S where
  plain {x : Trace PeerContext Call} {t : PeerContext} : Plain x.1 t → S x t
  close {x : Trace PeerContext Call} {status : ResponseStatusCode} : isTerminal status = true →
    K x (close status)

theorem keeps_onWriterEvent (h : WriteRules K G S) (stream : StreamPtr) (result : Bool) :
    K x (onWriterEvent stream result) := by
  refine h.get (Logic.ite (fun _ => ?_) fun _ => h.pure ())
  cases result with
  | true => exact h.modify (h.plain (Plain.shiftExpireTime _ stream))
  | false => exact h.close rfl

theorem keeps_writeTo (h : WriteRules K G S) (stream : StreamPtr) (data : Bytes) :
    K x (writeTo stream data) := by
  refine h.get (h.modify_bind (h.plain (Plain.setQueue _ stream _)) ?_)
  exact Logic.ite (fun _ => keeps_onWriterEvent h stream false) fun _ => h.pure ()

theorem keeps_enqueue (h : WriteRules K G S) {ep : OutboundEndpoint}
    (hep : x.1.requestsEndpoint = some ep) (data : Bytes) : K x (enqueue ep data) := by
  refine Logic.ite (fun _ => h.pure ()) fun _ => ?_
  cases ep with
  | connecting buffers bytes =>
    refine h.modify (h.plain (.of_rfl ⟨rfl, rfl, rfl, rfl, rfl, rfl, ?_, fun _ => rfl⟩ rfl rfl rfl rfl))
    rw [hep]
    rfl
  | connected stream => exact keeps_writeTo h stream data

theorem keeps_enqueueRequest (h : WriteRules K G S) {id : RequestId} (body : Bytes)
    (hnote : S x (noteRequest id x.1)) (hnotify : ∀ y, K y (notify id .internalError []))
    (hinsert : ∀ y : Trace PeerContext Call,
      S y { y.1 with localRequestIds := y.1.localRequestIds.insert id () }) :
    K x (enqueueRequest id body) := by
  refine h.modify_bind hnote (h.get (Logic.ite (fun _ => hnotify _) fun _ => ?_))
  cases hep : (noteRequest id x.1).requestsEndpoint with
  | none => exact h.close rfl
  | some ep =>
    refine Logic.ite (fun _ => h.close rfl) fun _ => ?_
    exact h.bind (keeps_enqueue (x := (noteRequest id x.1, x.2)) h hep body) fun _ y _ => h.modify (hinsert y)

/-- When a request that finds room is taken, the id is entered at once. -/
theorem keeps_enqueueRequest_of_takes (h : WriteRules K G S) {id : RequestId} {body : Bytes}
    (htakes : x.1.closed = true ∨
      x.1.requestsEndpoint.all (fun ep => ep.overflows x.1.queues body || x.1.takes body) = true)
    (hnote : S x (noteRequest id x.1)) (hnotify : ∀ y, K y (notify id .internalError []))
    (hinsert : ∀ t, x.1.closed = false → x.1.takes body = true → Plain (noteRequest id x.1) t →
      S (noteRequest id x.1, x.2) { t with localRequestIds := t.localRequestIds.insert id () }) :
    K x (enqueueRequest id body) := by
  refine h.modify_bind hnote (h.get (Logic.ite (fun _ => hnotify _) fun hopen => ?_))
  cases hep : (noteRequest id x.1).requestsEndpoint with
  | none => exact h.close rfl
  | some ep =>
    refine Logic.ite (fun _ => h.close rfl) fun hroom => ?_
    have hep' : x.1.requestsEndpoint = some ep := hep
    have htaken : x.1.takes body = true := by
      have hall := htakes.resolve_left hopen
      rw [hep', Option.all_some, Bool.or_eq_true] at hall
      exact hall.resolve_left hroom
    obtain ⟨-, t, hrun, hplain⟩ := enqueue_of_takes (s := noteRequest id x.1) hep htaken
    refine h.straight (a := ()) ?_ (hinsert t (Bool.eq_false_iff.mpr hopen) htaken hplain)
    show (enqueue ep body (noteRequest id x.1)).bind _ = _
    rw [hrun]
    rfl

theorem keeps_cancelRequest (h : WriteRules K G S) {id : RequestId} (body : Bytes)
    (hnote : S x (noteCancel id x.1))
    (herase : x.1.closed = false → S (noteCancel id x.1, x.2) (eraseLocalId id (noteCancel id x.1))) :
    K x (cancelRequest id body) := by
  refine h.modify_bind hnote (h.get (Logic.ite (fun hopen => h.modify_bind (herase hopen) ?_) fun _ => h.pure ()))
  cases hep : (noteCancel id x.1).requestsEndpoint with
  | none => exact h.pure ()
  | some ep =>
    refine Logic.ite (fun _ => h.pure ()) fun _ => ?_
    exact keeps_enqueue (x := (eraseLocalId id (noteCancel id x.1), x.2)) h hep body

theorem keeps_onConnected (h : WriteRules K G S) {stream : StreamPtr}
    (hconnect : x.1.requestsEndpoint.any OutboundEndpoint.isConnecting = true →
      S x { x.1 with requestsEndpoint := some (.connected stream) }) : K x (onConnected stream) := by
  refine h.get ?_
  split
  · rename_i buffers bytes hep
    refine h.modify_bind (hconnect (by rw [hep]; rfl)) ?_
    exact h.forM fun data _ _ _ => keeps_writeTo h stream data
  · exact h.pure ()

theorem keeps_finishStreamConfig (h : WriteRules K G S) {stream : StreamPtr}
    (hconnect : ∀ y : Trace PeerContext Call, y.1.requestsEndpoint.any OutboundEndpoint.isConnecting = true →
      S y { y.1 with requestsEndpoint := some (.connected stream) })
    (hadd : ∀ (y : Trace PeerContext Call) (queue : Bool), S y
      { y.1 with
          timer := if y.1.streams.isEmpty then .streamCleanup else y.1.timer
          streams := y.1.streams.emplace stream
            { StreamCtx.initial with
                queue := queue
                expireTime := y.1.world.now + kStreamCloseDelayMsec } }) :
    K x (finishStreamConfig stream) := by
  refine h.get (h.bind (h.when fun _ => ?_) fun _ y _ => h.modify (hadd y _))
  exact h.modify_bind (h.plain (Plain.setQueue _ stream _)) (keeps_onConnected h (hconnect _))

/-! ### Answering -/

theorem keeps_respond (h : WriteRules K G S) (id : RequestId)
    (op : Bool → InboundEndpoint → InboundEndpoint × Except EndpointError Unit) :
    K x (respond id op) := by
  refine h.get ?_
  cases hsink : x.1.findResponseSink id with
  | none => exact h.pure false
  | some sink =>
    obtain ⟨stream, ctx⟩ := sink
    obtain ⟨st, -, hst⟩ := Option.bind_eq_some_iff.mp hsink
    obtain ⟨ctx', hfind, hpair⟩ := Option.map_eq_some_iff.mp hst
    obtain ⟨rfl, rfl⟩ := Prod.mk.inj hpair
    have hcreate := Plain.createResponseEndpoint x.1 st ctx'
    obtain ⟨hids, hstreams⟩ := createResponseEndpoint_ids x.1 st ctx'
    have hstore (e : InboundEndpoint) := hcreate.trans (Plain.storeEndpoint (hstreams ▸ hfind) hids e)
    refine h.modify_bind (h.plain (hstore _)) ?_
    refine h.bind (h.when fun _ => keeps_onWriterEvent h st false) fun _ z _ => ?_
    have hclose : K z (do
        close .slowStream
        pure false) :=
      h.bind (h.close rfl) fun _ _ _ => h.pure false
    split
    · exact h.pure true
    · exact h.pure false
    · exact hclose

theorem keeps_sendResponse (h : WriteRules K G S) (id : RequestId) (status : ResponseStatusCode)
    (extensions : List Extension) : K x (sendResponse id status extensions) :=
  h.bind (keeps_respond h id _) fun _ _ _ => h.pure ()

theorem keeps_onRequest (h : WriteRules K G S) {stream : StreamPtr} {request : Message.Request}
    (hcancel : ∀ ctx, request.cancel = true → x.1.streams.find? stream = some ctx →
      S x { x.1.setStream stream { ctx with remoteRequestIds := ctx.remoteRequestIds.erase request.id } with
        remoteRequestsStreams := x.1.remoteRequestsStreams.erase request.id })
    (haccept : ∀ (y : Trace PeerContext Call) ctx, y.1.streams.find? stream = some ctx →
      y.1.remoteRequestsStreams.contains request.id = false →
      S y (y.1.acceptRequest stream ctx request.id))
    (hcall : ∀ y fb, K y (Prog.call (.onRemoteRequest fb request))) :
    K x (onRequest stream request) := by
  refine h.get ?_
  cases hfind : x.1.streams.find? stream with
  | none => exact h.pure ()
  | some ctx =>
    have hcreate := Plain.createResponseEndpoint x.1 stream ctx
    obtain ⟨hids, hstreams⟩ := createResponseEndpoint_ids x.1 stream ctx
    have hset := hcreate.trans (Plain.setStream (hstreams ▸ hfind) hids)
    refine Logic.ite (fun hc => h.modify (hcancel ctx hc hfind)) fun _ => h.modify_bind (h.plain hset) ?_
    refine Logic.ite (fun _ => keeps_sendResponse h _ _ _) fun hnew => ?_
    refine h.modify_bind (haccept _ _ ?_ ?_) (h.forM fun fb _ y _ => hcall y fb)
    · exact (OrdMap.find?_insert _ _ _ _).trans (if_pos rfl)
    · exact (congrArg (·.contains request.id) hset.remote).trans (Bool.eq_false_iff.mpr hnew)

theorem keeps_onBlocks (h : Logic K G S) {data : List Block}
    (hcall : ∀ y fb rootCid (item : Block), K y (Prog.call (.onBlock fb rootCid item.1 item.2))) :
    K x (onBlocks data) := by
  refine h.get ?_
  cases data with
  | nil => exact h.pure ()
  | cons root rest => exact h.forM fun item _ _ _ => h.forM fun fb _ y _ => hcall y fb root.1 item

theorem keeps_onMessageWritten (h : WriteRules K G S) (stream : StreamPtr) (res : MessageQueue.WriteResult) :
    K x (onMessageWritten stream res) := by
  refine h.get (Logic.ite (fun _ => ?_) fun _ => h.pure ())
  refine h.modify_bind (h.plain (Plain.setQueue _ stream _)) ?_
  exact h.forM fun result _ _ _ => keeps_onWriterEvent h stream result

theorem keeps_onStreamConnected (h : WriteRules K G S) (rstream : Option StreamPtr) :
    K x (onStreamConnected rstream) := by
  refine h.get (Logic.ite (fun _ => ?_) fun _ => h.pure ())
  cases rstream with
  | some stream => exact h.modify (h.plain (Plain.onNewStream _ stream))
  | none => exact Logic.ite (fun _ => h.close rfl) fun _ => h.pure ()

theorem keeps_onStreamAccepted (h : WriteRules K G S) (stream : StreamPtr) :
    K x (onStreamAccepted stream) := by
  refine h.get (Logic.ite (fun _ => ?_) fun _ => h.pure ())
  exact h.modify (h.plain (Plain.onNewStream _ stream))

/-! ### Streams and their messages -/

def Call.isResponse : Call → Bool
  | .onResponse _ _ _ _ => true
  | _ => false

/-- What is asked beside where a single stream is closed, and of the calls that are no report. -/
structure StreamRules (K : ∀ {α : Type}, Trace PeerContext Call → Action α → Prop)
    (G : Trace PeerContext Call → Trace PeerContext Call → Prop)
    (S : Trace PeerContext Call → PeerContext → Prop) : Prop extends WriteRules K G S where
  quiet {x : Trace PeerContext Call} {c : Call} : c.isResponse = false → K x (Prog.call c)
  removeStream {x : Trace PeerContext Call} (stream : StreamPtr) {status : ResponseStatusCode} :
    isTerminal status = true → K x (removeStream stream status)

theorem keeps_closeStream (h : StreamRules K G S) (stream : StreamPtr) {status : ResponseStatusCode}
    (hs : isTerminal status = true) : K x (closeStream stream status) := by
  refine h.get (Logic.ite (fun _ => ?_) fun _ => h.pure ())
  refine h.bind (h.removeStream stream hs) fun _ y _ => ?_
  exact h.get (Logic.ite (fun _ => h.close hs) fun _ => h.pure ())

theorem keeps_onStreamCleanupTimer (h : StreamRules K G S) : K x onStreamCleanupTimer := by
  refine h.get (Logic.ite (fun _ => h.close rfl) fun _ => ?_)
  refine h.modify_bind (h.plain (Plain.extendExpireTimes x.1)) ?_
  exact h.forM fun e _ _ _ => keeps_closeStream h e.1 rfl

theorem keeps_onTimer (h : StreamRules K G S) : K x onTimer := by
  refine h.get ?_
  cases x.1.timer with
  | unset => exact h.pure ()
  | streamCleanup => exact keeps_onStreamCleanupTimer h
  | peerClosed => exact h.quiet rfl

theorem keeps_onResponse (h : Logic K G S) {response : Message.Response}
    (herase : S x (eraseLocalId response.id x.1))
    (hnotify : ∀ y, K y (notify response.id response.status response.extensions)) :
    K x (onResponse response) :=
  h.get (Logic.ite (fun _ => h.bind (h.when fun _ => h.modify herase) fun _ y _ => hnotify y) fun _ =>
    h.pure ())

theorem keeps_onWindowAdjusted (h : WriteRules K G S) {stream : StreamPtr} {result : Bool}
    (hfinish : result = true → x.1.adjusting.contains stream = true →
      K ({ x.1 with adjusting := x.1.adjusting.erase stream }, x.2) (finishStreamConfig stream)) :
    K x (onWindowAdjusted stream result) := by
  refine h.get (Logic.ite (fun hin => ?_) fun _ => h.pure ())
  refine h.modify_bind (h.plain (.of_rfl ⟨rfl, rfl, rfl, rfl, rfl, rfl, rfl, fun _ => rfl⟩ rfl rfl rfl rfl)) ?_
  refine Logic.ite (fun hres => hfinish hres hin) fun _ => ?_
  exact Logic.ite (fun _ => h.close rfl) fun _ => h.pure ()

theorem keeps_onReaderEvent (h : StreamRules K G S) {stream : StreamPtr} {msg : Option Message}
    (hdrop : S x (x.1.dropRemoteRequests stream))
    (hrequest : x.1.streams.contains stream = true →
      ∀ m ∈ msg, ∀ item ∈ m.requests, ∀ y, G x y → K y (onRequest stream item))
    (hresponse : ∀ y item, K y (onResponse item)) : K x (onReaderEvent stream msg) := by
  refine h.get (Logic.ite (fun _ => ?_) fun _ => h.pure ())
  cases msg with
  | none => exact keeps_closeStream h stream rfl
  | some msg =>
    refine Logic.ite (fun hin => ?_) fun _ => h.pure ()
    refine h.bind (h.when fun _ => h.modify hdrop) fun _ y hxy => ?_
    refine h.bind (h.forM fun item hitem z hyz =>
      hrequest hin msg rfl item hitem z (h.trans hxy hyz)) fun _ y _ => ?_
    refine h.bind (h.forM fun item _ y _ => hresponse y item) fun _ y _ => ?_
    refine h.bind (keeps_onBlocks h.toLogic fun _ _ _ _ => h.quiet rfl) fun _ y _ => ?_
    exact h.modify (h.plain (Plain.shiftExpireTime _ stream))

/-! ### The operations -/

/-- The operations left to the user of the rules. -/
def Op.isRequest : Op → Bool
  | .enqueueRequest _ _ | .cancelRequest _ _ | .close _ => true
  | _ => false

/-- Those that open a way, bring a message or end a wait. -/
def Op.isArrival : Op → Bool
  | .needToConnect | .windowAdjusted _ _ | .readerEvent _ _ | .timer => true
  | _ => false

theorem keeps_op (h : WriteRules K G S) {o : Op} (ho : o.isRequest = false) (hin : o.isArrival = false) :
    K x (op o) := by
  cases o with
  | setOutboundAddress connectTo => exact h.modify (h.plain (Plain.setOutboundAddress _ connectTo))
  | addBlockToResponse id cid data =>
    exact h.bind (keeps_respond h id _) fun _ _ _ => h.pure ()
  | sendResponse id status extensions => exact keeps_sendResponse h id status extensions
  | keepAlive => exact h.pure ()
  | streamConnected rstream => exact keeps_onStreamConnected h rstream
  | streamAccepted stream => exact keeps_onStreamAccepted h stream
  | messageWritten stream res => exact keeps_onMessageWritten h stream res
  | world w =>
    exact h.modify (h.plain (.of_rfl ⟨rfl, rfl, rfl, rfl, rfl, rfl, rfl, fun _ => rfl⟩ rfl rfl rfl rfl))
  | enqueueRequest _ _ | cancelRequest _ _ | close _ => cases ho
  | needToConnect | windowAdjusted _ _ | readerEvent _ _ | timer => cases hin

/-- For a judgement that admits every step beside the table of the node's own requests. -/
structure FullRules (K : ∀ {α : Type}, Trace PeerContext Call → Action α → Prop)
    (G : Trace PeerContext Call → Trace PeerContext Call → Prop)
    (S : Trace PeerContext Call → PeerContext → Prop) : Prop extends StreamRules K G S where
  silent {x : Trace PeerContext Call} {t : PeerContext} : Silent x.1 t → S x t
  onResponse {x : Trace PeerContext Call} (response : Message.Response) : K x (onResponse response)
  finishStreamConfig {x : Trace PeerContext Call} (stream : StreamPtr) : K x (finishStreamConfig stream)
  needToConnect {x : Trace PeerContext Call} : S x x.1.needToConnect.1

/-- One case for each operation that opens a way or brings a message. -/
theorem keeps_fullOp (h : FullRules K G S) {o : Op} (ho : o.isRequest = false) : K x (op o) := by
  cases o with
  | needToConnect => exact h.modify h.needToConnect
  | windowAdjusted stream result =>
    exact keeps_onWindowAdjusted h.toWriteRules fun _ _ => h.finishStreamConfig stream
  | readerEvent stream msg =>
    refine keeps_onReaderEvent h.toStreamRules (h.silent (Silent.dropRemoteRequests _ stream))
      (fun _ _ _ item _ y _ => ?_) fun _ item => h.onResponse item
    refine keeps_onRequest h.toWriteRules (fun ctx _ hfind => ?_) (fun z ctx hfind _ => ?_) fun _ _ =>
      h.quiet rfl
    · exact h.silent ⟨rfl, rfl, rfl, rfl, rfl, rfl, rfl,
        Silent.contains_insert (OrdMap.contains_of_find? hfind) _⟩
    · exact h.silent (Silent.acceptRequest (OrdMap.contains_of_find? hfind) ctx item.id)
  | timer => exact keeps_onTimer h.toStreamRules
  | _ => exact keeps_op h.toWriteRules ho rfl

end
end IpfsLite.Graphsync.PeerContext
