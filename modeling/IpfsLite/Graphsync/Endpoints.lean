import IpfsLite.Graphsync.Marshalling

/-! # Queues and endpoints

`MessageQueue`, which writes to a stream one buffer at a time, the `OutboundEndpoint` of a
context's requests and the `InboundEndpoint` of a stream's responses, and the length check of
`LengthDelimitedMessageReader`. Whether the stream is closed for writing is asked of the stream at
the moment of a write, so it is an argument. -/
namespace IpfsLite.Graphsync
set_option autoImplicit false

inductive EndpointError where
  | writeQueueOverflow
  | messageSerializeError
  /-- `addDataBlock` throws -/
  | threw
  deriving DecidableEq, Repr

/-! ## `MessageQueue` -/

structure MessageQueue where
  stream : StreamPtr
  writingBytes : ℕ
  pendingBytes : ℕ
  totalBytesWritten : ℕ
  active : Bool
  pendingBuffers : List Bytes
  deriving DecidableEq

namespace MessageQueue

def create (stream : StreamPtr) : MessageQueue := ⟨stream, 0, 0, 0, true, []⟩

/-- The second component tells that `feedback_` is called at once, with `MESSAGE_WRITE_ERROR`. -/
def beginWrite (closedForWrite : Bool) (q : MessageQueue) (buffer : Bytes) : MessageQueue × Bool :=
  if closedForWrite then (q, true) else ({ q with writingBytes := buffer.length }, false)

def enqueue (closedForWrite : Bool) (q : MessageQueue) (data : Bytes) : MessageQueue × Bool :=
  if data = [] ∨ q.active = false then (q, false)
  else if 0 < q.writingBytes then
    ({ q with
        pendingBytes := q.pendingBytes + data.length
        pendingBuffers := q.pendingBuffers ++ [data] }, false)
  else beginWrite closedForWrite q data

def dequeue (closedForWrite : Bool) (q : MessageQueue) : MessageQueue × Bool :=
  match q.pendingBuffers with
  | [] => (q, false)
  | buffer :: rest =>
    beginWrite closedForWrite
      { q with pendingBuffers := rest, pendingBytes := q.pendingBytes - buffer.length } buffer

inductive WriteResult where
  | error
  | written (n : ℕ)
  deriving DecidableEq

/-- The feedback calls that follow, in order: true is a success. -/
def onMessageWritten (closedForWrite : Bool) (q : MessageQueue) (res : WriteResult) :
    MessageQueue × List Bool :=
  if q.active = false then (q, [])
  else
    let idle := { q with writingBytes := 0 }
    match res with
    | .error => (idle, [false])
    | .written n =>
      if q.writingBytes ≠ n then (idle, [false])
      else
        let (q', failed) := dequeue closedForWrite
          { idle with totalBytesWritten := q.totalBytesWritten + n }
        (q', if failed then [false, true] else [true])

end MessageQueue

/-! ## `OutboundEndpoint` -/

/-- Before it is connected the endpoint buffers, afterwards it passes on to the queue of a stream. -/
inductive OutboundEndpoint where
  | connecting (pendingBuffers : List Bytes) (pendingBytes : ℕ)
  | connected (stream : StreamPtr)
  deriving DecidableEq

namespace OutboundEndpoint

def initial : OutboundEndpoint := .connecting [] 0

def getStream : OutboundEndpoint → Option StreamPtr
  | .connecting _ _ => none
  | .connected stream => some stream

def isConnecting : OutboundEndpoint → Bool
  | .connecting _ _ => true
  | .connected _ => false

def pendingBytes (queues : StreamPtr → MessageQueue) : OutboundEndpoint → ℕ
  | .connecting _ bytes => bytes
  | .connected stream => (queues stream).pendingBytes

/-- `enqueue` answers `WRITE_QUEUE_OVERFLOW`. -/
def overflows (queues : StreamPtr → MessageQueue) (ep : OutboundEndpoint) (data : Bytes) : Bool :=
  data ≠ [] && kMaxPendingBytes < ep.pendingBytes queues + data.length

end OutboundEndpoint

/-! ## `InboundEndpoint` -/

structure InboundEndpoint where
  responseBuilder : MessageBuilder
  queue : MessageQueue
  /-- history: what was passed to `queue_->enqueue`, in order -/
  enqueued : List Bytes
  /-- history: the queue has called its feedback with an error -/
  writeError : Bool

namespace InboundEndpoint

/-- What `sendResponse` and `sendPartialResponse` do once the response entry is added. -/
def flush (closedForWrite : Bool) (e : InboundEndpoint) (builder : MessageBuilder) :
    InboundEndpoint × Except EndpointError Unit :=
  let cleared := { e with responseBuilder := .initial }
  match builder.serialize with
  | none => (cleared, .error .messageSerializeError)
  | some buffer =>
    if kMaxPendingBytes < e.queue.pendingBytes then (cleared, .error .writeQueueOverflow)
    else
      let (queue, failed) := e.queue.enqueue closedForWrite buffer
      ({ cleared with
          queue := queue
          enqueued := e.enqueued ++ [buffer]
          writeError := e.writeError || failed }, .ok ())

def sendResponse (closedForWrite : Bool) (e : InboundEndpoint) (id : RequestId)
    (status : ResponseStatusCode) (extensions : List Extension) :
    InboundEndpoint × Except EndpointError Unit :=
  e.flush closedForWrite (e.responseBuilder.addResponse id status extensions)

def sendPartialResponse (closedForWrite : Bool) (e : InboundEndpoint) (id : RequestId) :
    InboundEndpoint × Except EndpointError Unit :=
  e.flush closedForWrite (e.responseBuilder.addResponse id .partialContent [])

/-- `addBlockToResponse` once there is room in the message. -/
def addDataBlock (e : InboundEndpoint) (cid : CID) (data : Bytes) :
    InboundEndpoint × Except EndpointError Unit :=
  let (builder, added) := e.responseBuilder.addDataBlock cid data
  ({ e with responseBuilder := builder }, if added then .ok () else .error .threw)

/-- The new block goes into the next message. -/
def needsSplit (e : InboundEndpoint) (data : Bytes) : Bool :=
  kMaxMessageSize < e.responseBuilder.getSerializedSize + data.length

def overflows (e : InboundEndpoint) (data : Bytes) : Bool :=
  kMaxPendingBytes < e.queue.pendingBytes + e.responseBuilder.getSerializedSize + data.length

def addBlockToResponse (closedForWrite : Bool) (e : InboundEndpoint) (id : RequestId) (cid : CID)
    (data : Bytes) : InboundEndpoint × Except EndpointError Unit :=
  if e.overflows data then (e, .error .writeQueueOverflow)
  else if e.needsSplit data then
    match e.sendPartialResponse closedForWrite id with
    | (e', .error err) => (e', .error err)
    | (e', .ok ()) => e'.addDataBlock cid data
  else e.addDataBlock cid data

/-- What happens to an endpoint and to the queue it shares. The Boolean is what the stream answers
to `isClosedForWrite`. -/
inductive Op where
  | addBlockToResponse (closedForWrite : Bool) (id : RequestId) (cid : CID) (data : Bytes)
  | sendResponse (closedForWrite : Bool) (id : RequestId) (status : ResponseStatusCode)
      (extensions : List Extension)
  /-- a buffer of the `OutboundEndpoint` of the same stream -/
  | request (closedForWrite : Bool) (buffer : Bytes)
  | messageWritten (closedForWrite : Bool) (res : MessageQueue.WriteResult)

def apply (e : InboundEndpoint) : Op → InboundEndpoint × Except EndpointError Unit
  | .addBlockToResponse closed id cid data => e.addBlockToResponse closed id cid data
  | .sendResponse closed id status extensions => e.sendResponse closed id status extensions
  | .request closed buffer => ({ e with queue := (e.queue.enqueue closed buffer).1 }, .ok ())
  | .messageWritten closed res => ({ e with queue := (e.queue.onMessageWritten closed res).1 }, .ok ())

def step (e : InboundEndpoint) (op : Op) : Option InboundEndpoint := some (e.apply op).1

def create (stream : StreamPtr) : InboundEndpoint := ⟨.initial, .create stream, [], false⟩

end InboundEndpoint

/-! ## `LengthDelimitedMessageReader` -/

inductive LengthVerdict where
  | streamNotReadable
  | messageSizeOutOfBounds
  | reading (length : ℕ)
  deriving DecidableEq

def onLengthRead (maxMessageSize length : ℕ) : LengthVerdict :=
  if length = 0 then .streamNotReadable
  else if maxMessageSize < length then .messageSizeOutOfBounds
  else .reading length

/-- What the reader of a peer makes of the length prefix of a buffer. -/
def readLength (buffer : Bytes) : LengthVerdict :=
  match Varint.decode buffer with
  | none => onLengthRead kMaxMessageSize 0
  | some (length, _) => onLengthRead kMaxMessageSize length

end IpfsLite.Graphsync
