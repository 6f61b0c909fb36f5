import IpfsLite.Foundations.OrdMap
import IpfsLite.Foundations.Reentrant
import IpfsLite.Graphsync.Endpoints

/-! # `PeerContext`

Everything the node shares with one peer: the streams, the endpoint of the node's own requests and
the table of the peer's. The context calls the feedbacks it was created with, and these may call
back into it; its mutex is recursive and keeps every other thread out meanwhile.

`adjustWindowSize`, `newStream` and `write` answer later, by an operation of their own. What the
streams and the scheduler answer at once is in `World` and changes at any time. How long a timer
runs is not modelled. -/
namespace IpfsLite.Graphsync
set_option autoImplicit false

open Reentrant

structure StreamCtx where
  remoteRequestIds : OrdMap RequestId Unit
  /-- `queue` is set; the queue itself is in the heap of the context, under its stream -/
  queue : Bool
  responseEndpoint : Option MessageBuilder
  expireTime : ℕ

def StreamCtx.initial : StreamCtx := ⟨.empty, false, none, 0⟩

/-- The callback that `timer_` holds. -/
inductive Timer where
  | unset
  | streamCleanup
  | peerClosed
  deriving DecidableEq

structure World where
  closedForWrite : StreamPtr → Bool
  now : ℕ

structure PeerContext where
  peer : PeerId
  graphsyncFeedbacks : List InstanceId
  connectTo : Option (List Multiaddress)
  requestsEndpoint : Option OutboundEndpoint
  localRequestIds : OrdMap RequestId Unit
  streams : OrdMap StreamPtr StreamCtx
  remoteRequestsStreams : OrdMap RequestId StreamPtr
  timer : Timer
  closed : Bool
  closeStatus : ResponseStatusCode
  queues : StreamPtr → MessageQueue
  /-- the streams whose window is being adjusted -/
  adjusting : OrdMap StreamPtr Unit
  world : World
  /-- history: the ids passed to `enqueueRequest` -/
  requested : List RequestId
  /-- history: the ids passed to `cancelRequest` -/
  cancelled : List RequestId
  /-- history: the responses that the feedbacks are told of -/
  reported : List (RequestId × ResponseStatusCode)

namespace PeerContext

def kStreamCloseDelayMsec : ℕ := 60000
def kWindowExhaustionTimeoutMultiplier : ℕ := 3

/-- The feedback interfaces. A feedback that is gone makes nothing of a call. -/
inductive Call where
  | onResponse (feedback : InstanceId) (id : RequestId) (status : ResponseStatusCode)
      (extensions : List Extension)
  | onRemoteRequest (feedback : InstanceId) (request : Message.Request)
  | onBlock (feedback : InstanceId) (rootCid cid : CID) (data : Bytes)
  | peerClosed (status : ResponseStatusCode)
  deriving DecidableEq

abbrev Action (α : Type) := Prog PeerContext Call α

def create (peer : PeerId) (feedbacks : List InstanceId) (world : World) : PeerContext where
  peer := peer
  graphsyncFeedbacks := feedbacks
  connectTo := none
  requestsEndpoint := none
  localRequestIds := .empty
  streams := .empty
  remoteRequestsStreams := .empty
  timer := .unset
  closed := false
  closeStatus := .internalError
  queues := .create
  adjusting := .empty
  world := world
  requested := []
  cancelled := []
  reported := []

inductive State where
  | canConnect
  | isConnecting
  | isConnected
  | isClosed
  deriving DecidableEq

def getState (s : PeerContext) : State :=
  if s.closed then .isClosed
  else if s.streams.isEmpty = false then .isConnected
  else if s.requestsEndpoint.any OutboundEndpoint.isConnecting then .isConnecting
  else .canConnect

def setOutboundAddress (connectTo : Option (List Multiaddress)) (s : PeerContext) : PeerContext :=
  match connectTo with
  | none => s
  | some _ => { s with connectTo := connectTo }

def getOutboundPeerInfo (s : PeerContext) : PeerId × List Multiaddress := (s.peer, s.connectTo.getD [])

def setQueue (stream : StreamPtr) (q : MessageQueue) (s : PeerContext) : PeerContext :=
  { s with queues := fun st => if st = stream then q else s.queues st }

def setStream (stream : StreamPtr) (ctx : StreamCtx) (s : PeerContext) : PeerContext :=
  { s with streams := s.streams.insert stream ctx }

def createMessageQueue (stream : StreamPtr) (ctx : StreamCtx) (s : PeerContext) :
    StreamCtx × PeerContext :=
  if ctx.queue then (ctx, s) else ({ ctx with queue := true }, s.setQueue stream (.create stream))

def createResponseEndpoint (stream : StreamPtr) (ctx : StreamCtx) (s : PeerContext) :
    StreamCtx × PeerContext :=
  let created := createMessageQueue stream ctx s
  ({ created.1 with responseEndpoint := some (created.1.responseEndpoint.getD .initial) }, created.2)

/-- True when the caller has to connect. -/
def needToConnect (s : PeerContext) : PeerContext × Bool :=
  match s.requestsEndpoint with
  | some _ => (s, false)
  | none =>
    match s.streams.entries with
    | [] => ({ s with requestsEndpoint := some .initial }, true)
    | (stream, ctx) :: _ =>
      let created := createMessageQueue stream ctx s
      ({ created.2.setStream stream created.1 with requestsEndpoint := some (.connected stream) }, false)

/-! ## Histories -/

def noteRequest (id : RequestId) (s : PeerContext) : PeerContext :=
  { s with requested := s.requested ++ [id] }

def noteCancel (id : RequestId) (s : PeerContext) : PeerContext :=
  { s with cancelled := s.cancelled ++ [id] }

def noteReport (id : RequestId) (status : ResponseStatusCode) (s : PeerContext) : PeerContext :=
  { s with reported := s.reported ++ [(id, status)] }

/-! ## Closing -/

def eraseLocalId (id : RequestId) (s : PeerContext) : PeerContext :=
  { s with localRequestIds := s.localRequestIds.erase id }

/-- The loop over `graphsync_feedbacks_` that passes a response on. -/
def notify (id : RequestId) (status : ResponseStatusCode) (extensions : List Extension) :
    Action Unit := do
  Prog.modify (noteReport id status)
  let s ← Prog.get
  s.graphsyncFeedbacks.forM fun fb => Prog.call (.onResponse fb id status extensions)

def closeLocalRequests (status : ResponseStatusCode) : Action Unit := do
  let s ← Prog.get
  Prog.modify fun s => { s with localRequestIds := .empty }
  s.localRequestIds.keys.forM fun id => notify id status []
  Prog.modify fun s => { s with requestsEndpoint := none }

/-- Forgets the requests that came through the stream. -/
def dropRemoteRequests (stream : StreamPtr) (s : PeerContext) : PeerContext :=
  match s.streams.find? stream with
  | none => s
  | some ctx =>
    { s with
        remoteRequestsStreams :=
          ctx.remoteRequestIds.keys.foldl (fun m id => m.erase id) s.remoteRequestsStreams
        streams := s.streams.modify stream fun ctx => { ctx with remoteRequestIds := .empty } }

/-- `closeStream` up to its last condition. -/
def removeStream (stream : StreamPtr) (status : ResponseStatusCode) : Action Unit := do
  let s ← Prog.get
  if s.streams.contains stream then
    Prog.modify fun s =>
      { s.dropRemoteRequests stream with streams := s.streams.erase stream }
    if s.requestsEndpoint.bind OutboundEndpoint.getStream = some stream then
      closeLocalRequests status

/-- While the loop runs `closed_` is set: `closeStream` does not come back here, and no stream is
added, so `while (!streams_.empty())` goes once through the streams that are there. -/
def close (status : ResponseStatusCode) : Action Unit := do
  let s ← Prog.get
  if s.closed = false then
    Prog.modify fun s =>
      { s with closeStatus := status, closed := true, remoteRequestsStreams := .empty }
    s.streams.keys.forM fun stream => removeStream stream status
    let s ← Prog.get
    Prog.when s.requestsEndpoint.isSome (closeLocalRequests status)
    if status ≠ .rejectedLocally then Prog.modify fun s => { s with timer := .peerClosed }
    else Prog.call (.peerClosed .rejectedLocally)

def closeStream (stream : StreamPtr) (status : ResponseStatusCode) : Action Unit := do
  let s ← Prog.get
  if s.streams.contains stream then
    removeStream stream status
    let s ← Prog.get
    if s.closed = false ∧ s.streams.isEmpty = true ∧ isError status = true then close status

/-! ## Writing -/

def shiftExpireTime (stream : StreamPtr) (s : PeerContext) : PeerContext :=
  { s with
      streams := s.streams.modify stream fun ctx =>
        { ctx with expireTime := s.world.now + kStreamCloseDelayMsec } }

def onWriterEvent (stream : StreamPtr) (result : Bool) : Action Unit := do
  let s ← Prog.get
  if s.closed = false then
    if result then Prog.modify (shiftExpireTime stream) else close .connectionError

/-- `enqueue` of the stream's queue, with the call of its feedback. -/
def writeTo (stream : StreamPtr) (data : Bytes) : Action Unit := do
  let s ← Prog.get
  let written := (s.queues stream).enqueue (s.world.closedForWrite stream) data
  Prog.modify (setQueue stream written.1)
  if written.2 then onWriterEvent stream false

/-- `requests_endpoint_->enqueue` of a message that does not overflow. -/
def enqueue (ep : OutboundEndpoint) (data : Bytes) : Action Unit :=
  if data = [] then pure ()
  else
    match ep with
    | .connecting buffers bytes =>
      Prog.modify fun s =>
        { s with
            requestsEndpoint := some (.connecting (buffers ++ [data]) (bytes + data.length)) }
    | .connected stream => writeTo stream data

def enqueueRequest (id : RequestId) (body : Bytes) : Action Unit := do
  Prog.modify (noteRequest id)
  let s ← Prog.get
  if s.closed then notify id .internalError []
  else
    match s.requestsEndpoint with
    | none => close .internalError
    | some ep =>
      if ep.overflows s.queues body then close .slowStream
      else
        enqueue ep body
        Prog.modify fun s => { s with localRequestIds := s.localRequestIds.insert id () }

def cancelRequest (id : RequestId) (body : Bytes) : Action Unit := do
  Prog.modify (noteCancel id)
  let s ← Prog.get
  if s.closed = false then
    Prog.modify (eraseLocalId id)
    match s.requestsEndpoint with
    | none => pure ()
    | some ep => if ep.overflows s.queues body then pure () else enqueue ep body

/-! ## Streams -/

/-- The buffers that waited for the connection. When one of them fails the endpoint is destroyed
under its own loop; the rest of it has no effect. -/
def onConnected (stream : StreamPtr) : Action Unit := do
  let s ← Prog.get
  match s.requestsEndpoint with
  | some (.connecting buffers _) =>
    Prog.modify fun s => { s with requestsEndpoint := some (.connected stream) }
    buffers.forM fun data => writeTo stream data
  | _ => pure ()

/-- `closed_` is not asked here: a stream can be configured after the context is closed. -/
def finishStreamConfig (stream : StreamPtr) : Action Unit := do
  let s ← Prog.get
  let connecting : Bool := s.getState = .isConnecting
  Prog.when connecting do
    Prog.modify (setQueue stream (.create stream))
    onConnected stream
  Prog.modify fun s =>
    { s with
        timer := if s.streams.isEmpty then .streamCleanup else s.timer
        streams := s.streams.emplace stream
          { StreamCtx.initial with
              queue := connecting
              expireTime := s.world.now + kStreamCloseDelayMsec } }

def onNewStream (stream : StreamPtr) (s : PeerContext) : PeerContext :=
  if s.streams.contains stream then s else { s with adjusting := s.adjusting.insert stream () }

/-- `none` when the connection failed. -/
def onStreamConnected (rstream : Option StreamPtr) : Action Unit := do
  let s ← Prog.get
  if s.closed = false then
    match rstream with
    | some stream => Prog.modify (onNewStream stream)
    | none => if s.getState = .isConnecting then close .cannotConnect

def onStreamAccepted (stream : StreamPtr) : Action Unit := do
  let s ← Prog.get
  if s.closed = false then Prog.modify (onNewStream stream)

/-- The callback of `adjustWindowSize`. -/
def onWindowAdjusted (stream : StreamPtr) (result : Bool) : Action Unit := do
  let s ← Prog.get
  if s.adjusting.contains stream then
    Prog.modify fun s => { s with adjusting := s.adjusting.erase stream }
    if result then finishStreamConfig stream
    else if s.getState = .isConnecting then close .cannotConnect

/-- `onMessageWritten` of the stream's queue, while somebody holds the queue. -/
def onMessageWritten (stream : StreamPtr) (res : MessageQueue.WriteResult) : Action Unit := do
  let s ← Prog.get
  let held := (s.streams.find? stream).any StreamCtx.queue ||
    s.requestsEndpoint.bind OutboundEndpoint.getStream = some stream
  if held = true ∧ 0 < (s.queues stream).writingBytes then
    let written := (s.queues stream).onMessageWritten (s.world.closedForWrite stream) res
    Prog.modify (setQueue stream written.1)
    written.2.forM fun result => onWriterEvent stream result

/-- `onStreamCleanupTimer` leaves a stream that is writing or that waits for its window. -/
def isTimedOut (s : PeerContext) (e : StreamPtr × StreamCtx) : Bool :=
  !(e.2.queue && (0 < (s.queues e.1).writingBytes || 0 < (s.queues e.1).pendingBytes)) &&
    e.2.expireTime ≤ s.world.now

def extendExpireTime (s : PeerContext) (stream : StreamPtr) (ctx : StreamCtx) : StreamCtx :=
  if ctx.queue = true ∧ (s.queues stream).writingBytes = 0 ∧ 0 < (s.queues stream).pendingBytes then
    { ctx with
        expireTime := max ctx.expireTime
          (s.world.now + kStreamCloseDelayMsec * kWindowExhaustionTimeoutMultiplier) }
  else ctx

def onStreamCleanupTimer : Action Unit := do
  let s ← Prog.get
  if s.streams.isEmpty then close .timeout
  else
    Prog.modify fun s => { s with streams := s.streams.mapValues s.extendExpireTime }
    (s.streams.entries.filter s.isTimedOut).forM fun e => closeStream e.1 .timeout

def onTimer : Action Unit := do
  let s ← Prog.get
  match s.timer with
  | .unset => pure ()
  | .streamCleanup => onStreamCleanupTimer
  | .peerClosed => Prog.call (.peerClosed s.closeStatus)

/-! ## Responding -/

def findResponseSink (id : RequestId) (s : PeerContext) : Option (StreamPtr × StreamCtx) :=
  (s.remoteRequestsStreams.find? id).bind fun stream =>
    (s.streams.find? stream).map fun ctx => (stream, ctx)

def storeEndpoint (stream : StreamPtr) (ctx : StreamCtx) (e : InboundEndpoint) (s : PeerContext) :
    PeerContext :=
  (s.setStream stream { ctx with responseEndpoint := some e.responseBuilder }).setQueue stream e.queue

/-- `addBlockToResponse` and `sendResponse`, which differ in what they do to the endpoint. -/
def respond (id : RequestId)
    (op : Bool → InboundEndpoint → InboundEndpoint × Except EndpointError Unit) : Action Bool := do
  let s ← Prog.get
  match s.findResponseSink id with
  | none => pure false
  | some (stream, ctx) =>
    let created := createResponseEndpoint stream ctx s
    let done := op (s.world.closedForWrite stream)
      ⟨created.1.responseEndpoint.getD .initial, created.2.queues stream, [], false⟩
    Prog.modify fun _ => created.2.storeEndpoint stream created.1 done.1
    Prog.when done.1.writeError (onWriterEvent stream false)
    match done.2 with
    | .ok () => pure true
    | .error .threw => pure false
    | .error _ =>
      close .slowStream
      pure false

def addBlockToResponse (id : RequestId) (cid : CID) (data : Bytes) : Action Bool :=
  respond id fun closedForWrite e => e.addBlockToResponse closedForWrite id cid data

def sendResponse (id : RequestId) (status : ResponseStatusCode) (extensions : List Extension) :
    Action Unit := do
  let _ ← respond id fun closedForWrite e => e.sendResponse closedForWrite id status extensions

/-! ## Reading -/

def onResponse (response : Message.Response) : Action Unit := do
  let s ← Prog.get
  if s.localRequestIds.contains response.id then
    Prog.when (isTerminal response.status)
      (Prog.modify (eraseLocalId response.id))
    notify response.id response.status response.extensions

/-- A request that is new on its peer is entered with the stream it came through. -/
def acceptRequest (stream : StreamPtr) (ctx : StreamCtx) (id : RequestId) (s : PeerContext) :
    PeerContext :=
  { s.setStream stream { ctx with remoteRequestIds := ctx.remoteRequestIds.insert id () } with
      remoteRequestsStreams := s.remoteRequestsStreams.insert id stream }

def onRequest (stream : StreamPtr) (request : Message.Request) : Action Unit := do
  let s ← Prog.get
  match s.streams.find? stream with
  | none => pure ()
  | some ctx =>
    if request.cancel then
      Prog.modify fun s =>
        { s.setStream stream { ctx with remoteRequestIds := ctx.remoteRequestIds.erase request.id } with
            remoteRequestsStreams := s.remoteRequestsStreams.erase request.id }
    else
      let created := createResponseEndpoint stream ctx s
      Prog.modify fun _ => created.2.setStream stream created.1
      if s.remoteRequestsStreams.contains request.id then sendResponse request.id .rejected []
      else
        Prog.modify (acceptRequest stream created.1 request.id)
        s.graphsyncFeedbacks.forM fun fb => Prog.call (.onRemoteRequest fb request)

/-- The root of all the blocks of a message is its first block. -/
def onBlocks (data : List Block) : Action Unit := do
  let s ← Prog.get
  match data with
  | [] => pure ()
  | root :: _ =>
    data.forM fun item =>
      s.graphsyncFeedbacks.forM fun fb => Prog.call (.onBlock fb root.1 item.1 item.2)

/-- `none` when the message could not be read. -/
def onReaderEvent (stream : StreamPtr) (msg : Option Message) : Action Unit := do
  let s ← Prog.get
  if s.closed = false then
    match msg with
    | none => closeStream stream .connectionError
    | some msg =>
      if s.streams.contains stream then
        Prog.when msg.completeRequestList (Prog.modify (dropRemoteRequests stream))
        msg.requests.forM fun item => onRequest stream item
        msg.responses.forM fun item => onResponse item
        onBlocks msg.data
        Prog.modify (shiftExpireTime stream)

/-! ## The operations of a context -/

inductive Op where
  | setOutboundAddress (connectTo : Option (List Multiaddress))
  | needToConnect
  | enqueueRequest (id : RequestId) (body : Bytes)
  | cancelRequest (id : RequestId) (body : Bytes)
  | addBlockToResponse (id : RequestId) (cid : CID) (data : Bytes)
  | sendResponse (id : RequestId) (status : ResponseStatusCode) (extensions : List Extension)
  | keepAlive
  | close (status : ResponseStatusCode)
  | streamConnected (rstream : Option StreamPtr)
  | streamAccepted (stream : StreamPtr)
  | windowAdjusted (stream : StreamPtr) (result : Bool)
  | readerEvent (stream : StreamPtr) (msg : Option Message)
  | messageWritten (stream : StreamPtr) (res : MessageQueue.WriteResult)
  | timer
  | world (w : World)

/-- What the network may do to the context while a feedback is being called. The other operations
come from the streams and the scheduler, and wait for the mutex. -/
def Op.reentrant : Op → Bool
  | setOutboundAddress _ | needToConnect | enqueueRequest _ _ | cancelRequest _ _
  | addBlockToResponse _ _ _ | sendResponse _ _ _ | keepAlive | close _ | world _ => true
  | streamConnected _ | streamAccepted _ | windowAdjusted _ _ | readerEvent _ _
  | messageWritten _ _ | timer => false

def op : Op → Action Unit
  | .setOutboundAddress connectTo => Prog.modify (setOutboundAddress connectTo)
  | .needToConnect => Prog.modify fun s => s.needToConnect.1
  | .enqueueRequest id body => enqueueRequest id body
  | .cancelRequest id body => cancelRequest id body
  | .addBlockToResponse id cid data => do
    let _ ← addBlockToResponse id cid data
  | .sendResponse id status extensions => sendResponse id status extensions
  | .keepAlive => pure ()
  | .close status => close status
  | .streamConnected rstream => onStreamConnected rstream
  | .streamAccepted stream => onStreamAccepted stream
  | .windowAdjusted stream result => onWindowAdjusted stream result
  | .readerEvent stream msg => onReaderEvent stream msg
  | .messageWritten stream res => onMessageWritten stream res
  | .timer => onTimer
  | .world w => Prog.modify fun s => { s with world := w }

def enabled (pending : List Call) (o : Op) : Bool := pending.isEmpty || o.reentrant

/-- One context with the calls it has pending. -/
def step : Config PeerContext Call → Move Op → Option (Config PeerContext Call) :=
  Config.step op enabled

end PeerContext
end IpfsLite.Graphsync
