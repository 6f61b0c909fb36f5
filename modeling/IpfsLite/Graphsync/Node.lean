import IpfsLite.Graphsync.LocalRequests
import IpfsLite.Graphsync.PeerContext

/-! # The node

The `GraphsyncImpl` instances of a node over the one `Network` and the one id generator they share,
and the contexts the network has made. A context lives in a heap; `peers_` says which one a peer has
now. The outside is the user, whose callbacks may use the node again.

`requested_cids_mutex_` of an instance is a flag: to take it while it is held on the same thread is
the deadlock. Threads other than the one that runs wait for the contexts' mutexes. The task that
`onRemoteRequest` posts is the subject of `Responder`, and connecting answers later. -/
namespace IpfsLite.Graphsync
set_option autoImplicit false

open Reentrant

abbrev ContextId := ℕ

inductive RequestState where
  | inProgress
  | completed
  | failed
  deriving DecidableEq

structure RequestTrackingInfo where
  state : RequestState
  requestId : RequestId
  lastActivityTime : ℕ
  startTime : ℕ
  deriving DecidableEq

structure GraphsyncImpl where
  started : Bool
  localRequests : LocalRequests
  trackedRequests : AssocMap CID RequestTrackingInfo

structure Network where
  feedbacks : List InstanceId
  peers : OrdMap PeerId ContextId
  activeRequestsPerPeer : OrdMap RequestId ContextId
  started : Bool

structure Node where
  instances : InstanceId → GraphsyncImpl
  network : Network
  /-- every context made so far, with the calls it has made -/
  contexts : List (Trace PeerContext PeerContext.Call)
  generator : IdGenerator
  now : ℕ
  /-- `requested_cids_mutex_` is held -/
  locked : InstanceId → Bool
  /-- a mutex was taken that was held -/
  deadlock : Bool

namespace Node

def kRequestActivityTimeoutMs : ℕ := 180000

/-- What a progress callback is called from. -/
inductive Origin where
  | response
  | cleanup
  | cancelAll
  deriving DecidableEq

/-- The callbacks of the user. -/
inductive Call where
  | progress (i : InstanceId) (id : RequestId) (status : ResponseStatusCode)
      (extensions : List Extension) (origin : Origin)
  | block (i : InstanceId) (cid : CID) (data : Bytes)
  deriving DecidableEq

abbrev Action (α : Type) := Prog Node Call α

def initial : Node where
  instances := fun _ => ⟨false, .initial, .empty⟩
  network := ⟨[], .empty, .empty, false⟩
  contexts := []
  generator := .initial
  now := 0
  locked := fun _ => false
  deadlock := false

/-! ## Parts of the node -/

def setInstance (i : InstanceId) (g : GraphsyncImpl) (s : Node) : Node :=
  { s with instances := fun j => if j = i then g else s.instances j }

def setLocal (i : InstanceId) (l : LocalRequests) (s : Node) : Node :=
  s.setInstance i { s.instances i with localRequests := l }

def setTracked (i : InstanceId) (m : AssocMap CID RequestTrackingInfo) (s : Node) : Node :=
  s.setInstance i { s.instances i with trackedRequests := m }

def modifyTracked (i : InstanceId) (rootCid : CID)
    (f : RequestTrackingInfo → RequestTrackingInfo) (s : Node) : Node :=
  s.setTracked i ((s.instances i).trackedRequests.modify rootCid f)

def setNetwork (n : Network) (s : Node) : Node := { s with network := n }

def absent : Trace PeerContext PeerContext.Call := (.create 0 [] ⟨fun _ => false, 0⟩, [])

def trace (c : ContextId) (s : Node) : Trace PeerContext PeerContext.Call := s.contexts.getD c absent

def context (c : ContextId) (s : Node) : PeerContext := (s.trace c).1

def setTrace (c : ContextId) (t : Trace PeerContext PeerContext.Call) (s : Node) : Node :=
  { s with contexts := s.contexts.set c t }

/-! ## The mutex -/

def setLocked (i : InstanceId) (b : Bool) (s : Node) : Node :=
  { s with locked := fun j => if j = i then b else s.locked j }

def lock (i : InstanceId) : Action Unit :=
  Prog.modify fun s => { s.setLocked i true with deadlock := s.deadlock || s.locked i }

def unlock (i : InstanceId) : Action Unit := Prog.modify (setLocked i false)

/-- The scope of a `lock_guard`. -/
def withLock {α : Type} (i : InstanceId) (p : Action α) : Action α := do
  lock i
  let a ← p
  unlock i
  pure a

/-! ## Feedback of the contexts -/

/-- `local_requests_->onResponse`. -/
def localOnResponse (i : InstanceId) (id : RequestId) (status : ResponseStatusCode)
    (extensions : List Extension) (origin : Origin) : Action Unit := do
  let s ← Prog.get
  let answered := (s.instances i).localRequests.onResponse id status
  Prog.modify (setLocal i answered.1)
  Prog.when answered.2 (Prog.call (.progress i id status extensions origin))

/-- What a response does to what is tracked. `RS_FULL_CONTENT` leaves the state to `onBlock`. -/
def trackResponse (now : ℕ) (status : ResponseStatusCode) (info : RequestTrackingInfo) :
    RequestTrackingInfo :=
  { info with
      lastActivityTime := now
      state := if isTerminal status && status ≠ .fullContent then .failed else info.state }

def onResponse (i : InstanceId) (id : RequestId) (status : ResponseStatusCode)
    (extensions : List Extension) : Action Unit := do
  let s ← Prog.get
  if (s.instances i).started then
    match (s.instances i).localRequests.getRequestRootCid id with
    | none => localOnResponse i id status extensions .response
    | some rootCid =>
      withLock i (Prog.modify (modifyTracked i rootCid (trackResponse s.now status)))
      localOnResponse i id status extensions .response

def completeRequest (info : RequestTrackingInfo) : RequestTrackingInfo :=
  if info.state = .inProgress then { info with state := .completed } else info

/-- What was tracked for the root before. -/
def touchRequest (i : InstanceId) (rootCid : CID) (s : Node) : Node × Option RequestTrackingInfo :=
  (s.modifyTracked i rootCid fun info => { info with lastActivityTime := s.now },
    (s.instances i).trackedRequests.find? rootCid)

def onBlock (i : InstanceId) (rootCid cid : CID) (data : Bytes) : Action Unit := do
  let s ← Prog.get
  if (s.instances i).started then
    let tracked ← withLock i (Prog.update (touchRequest i rootCid))
    match tracked with
    | none => pure ()
    | some info =>
      Prog.call (.block i cid data)
      Prog.when (info.state = .inProgress)
        (withLock i (Prog.modify (modifyTracked i rootCid completeRequest)))

/-- `peerClosed` of the network: whatever context the peer has now. -/
def peerClosed (peer : PeerId) (s : Node) : Node :=
  s.setNetwork { s.network with peers := s.network.peers.erase peer }

def handle (c : ContextId) : PeerContext.Call → Action Unit
  | .onResponse i id status extensions => onResponse i id status extensions
  | .onRemoteRequest _ _ => pure ()
  | .onBlock i rootCid cid data => onBlock i rootCid cid data
  | .peerClosed _ => Prog.modify fun s => s.peerClosed (s.context c).peer

def onContext {α : Type} (c : ContextId) (p : PeerContext.Action α) : Action α := fun s =>
  (p (s.context c)).embed (trace c) (setTrace c) (handle c) s

/-! ## `Network` -/

/-- Registers also an instance that is registered already. -/
def networkStart (i : InstanceId) (s : Node) : Node :=
  s.setNetwork { s.network with
    feedbacks := s.network.feedbacks ++ [i]
    started := s.network.started || s.network.feedbacks.isEmpty }

def closeAllPeers : Action Unit := do
  let s ← Prog.get
  Prog.modify fun s => s.setNetwork { s.network with peers := .empty, activeRequestsPerPeer := .empty }
  s.network.peers.entries.forM fun e => onContext e.2 (PeerContext.close .rejectedLocally)

def networkStop (i : InstanceId) : Action Unit := do
  let s ← Prog.get
  let left := s.network.feedbacks.filter fun j => j ≠ i
  Prog.modify fun s => s.setNetwork { s.network with
    feedbacks := left
    started := s.network.started && !left.isEmpty }
  Prog.when (left = []) closeAllPeers

def createContext (peer : PeerId) (s : Node) : Node × Option ContextId :=
  ({ s with
      contexts := s.contexts ++
        [(.create peer s.network.feedbacks ⟨fun _ => false, s.now⟩, [])]
      network := { s.network with peers := s.network.peers.insert peer s.contexts.length } },
    some s.contexts.length)

def findContext (peer : PeerId) (createIfNotFound : Bool) (s : Node) : Node × Option ContextId :=
  if s.network.started = false then (s, none)
  else
    match s.network.peers.find? peer with
    | none => if createIfNotFound then s.createContext peer else (s, none)
    | some c =>
      if (s.context c).getState = .isClosed then
        let s := s.peerClosed peer
        if createIfNotFound then s.createContext peer else (s, none)
      else (s, some c)

def canSendRequest (peer : PeerId) (s : Node) : Node × Bool :=
  match s.findContext peer true with
  | (s, none) => (s, false)
  | (s, some c) => if (s.context c).getState = .isClosed then (s.peerClosed peer, false) else (s, true)

def networkMakeRequest (peer : PeerId) (address : Option (List Multiaddress)) (id : RequestId)
    (body : Bytes) : Action Unit := do
  let ok ← Prog.update (canSendRequest peer)
  if ok then
    let found ← Prog.update (findContext peer false)
    match found with
    | none => pure ()
    | some c =>
      onContext c do
        Prog.modify (PeerContext.setOutboundAddress address)
        Prog.modify fun ctx => ctx.needToConnect.1
        PeerContext.enqueueRequest id body

def networkCancelRequest (id : RequestId) (body : Option Bytes) : Action Unit := do
  let s ← Prog.get
  if s.network.started then
    match s.network.activeRequestsPerPeer.find? id with
    | none => pure ()
    | some c =>
      Prog.modify fun s => s.setNetwork { s.network with
        activeRequestsPerPeer := s.network.activeRequestsPerPeer.erase id }
      match body with
      | none => pure ()
      | some body => onContext c (PeerContext.cancelRequest id body)

/-- The operations that go to the context of a peer, if it has one. -/
def onPeer (peer : PeerId) (p : PeerContext.Action Unit) : Action Unit := do
  let found ← Prog.update (findContext peer false)
  match found with
  | none => pure ()
  | some c => onContext c p

def networkAddBlockToResponse (peer : PeerId) (id : RequestId) (cid : CID) (data : Bytes) :
    Action Unit :=
  onPeer peer do
    let _ ← PeerContext.addBlockToResponse id cid data

def networkSendResponse (peer : PeerId) (id : RequestId) (status : ResponseStatusCode)
    (extensions : List Extension) : Action Unit :=
  onPeer peer (PeerContext.sendResponse id status extensions)

def networkOnStreamAccepted (peer : PeerId) (stream : StreamPtr) : Action Unit := do
  let s ← Prog.get
  if s.network.started then
    let found ← Prog.update (findContext peer true)
    match found with
    | none => pure ()
    | some c => onContext c (PeerContext.onStreamAccepted stream)

/-! ## `GraphsyncImpl` -/

def start (i : InstanceId) : Action Unit := do
  Prog.modify (networkStart i)
  Prog.modify fun s => s.setInstance i { s.instances i with started := true }

/-- Every callback of one of the maps is told once. -/
def cancelAll (i : InstanceId) (ids : List RequestId) : Action Unit :=
  ids.forM fun id => Prog.call (.progress i id .rejectedLocally [] .cancelAll)

def cancelActive (i : InstanceId) : Action Unit := do
  let s ← Prog.get
  Prog.modify fun s => s.setLocal i { (s.instances i).localRequests with activeRequests := .empty }
  cancelAll i (s.instances i).localRequests.activeRequests.keys

def cancelRejected (i : InstanceId) : Action Unit := do
  let s ← Prog.get
  Prog.modify fun s => s.setLocal i { (s.instances i).localRequests with rejectedRequests := .empty }
  cancelAll i (s.instances i).localRequests.rejectedRequests.keys

def doStop (i : InstanceId) : Action Unit := do
  let s ← Prog.get
  if (s.instances i).started then
    Prog.modify fun s => s.setInstance i { s.instances i with started := false }
    networkStop i
    Prog.modify (setTracked i .empty)
    cancelActive i
    cancelRejected i

/-- The callback of `asyncNotifyRejectedRequests`. -/
def notifyRejected (i : InstanceId) : Action Unit := do
  cancelRejected i
  Prog.modify fun s =>
    if (s.instances i).localRequests.rejectedRequests.isEmpty then
      s.setLocal i { (s.instances i).localRequests with currentRejectedRequestId := 0 }
    else s

def newRejectedRequest (i : InstanceId) (s : Node) : Node :=
  s.setLocal i (s.instances i).localRequests.newRejectedRequest

/-- `local_requests_->newRequest`. -/
def newRequest (i : InstanceId) (rootCid : CID) (selector : Bytes) (extensions : List Extension)
    (s : Node) : Node × Option LocalRequests.NewRequest :=
  let made := (s.instances i).localRequests.newRequest s.generator rootCid selector extensions
  ({ s.setLocal i made.1.1 with generator := made.1.2 }, made.2)

def trackRequest (i : InstanceId) (rootCid : CID) (id : RequestId) (s : Node) : Node :=
  s.setTracked i ((s.instances i).trackedRequests.insert rootCid ⟨.inProgress, id, s.now, s.now⟩)

def isInProgress (i : InstanceId) (rootCid : CID) (s : Node) : Bool :=
  ((s.instances i).trackedRequests.find? rootCid).any fun info => info.state = .inProgress

def makeRequest (i : InstanceId) (peer : PeerId) (address : Option (List Multiaddress))
    (rootCid : CID) (selector : Bytes) (extensions : List Extension) : Action Unit := do
  let s ← Prog.get
  if (s.instances i).started = false then Prog.modify (newRejectedRequest i)
  else
    let ok ← Prog.update (canSendRequest peer)
    if ok = false then Prog.modify (newRejectedRequest i)
    else
      withLock i do
        let s ← Prog.get
        if s.isInProgress i rootCid then Prog.modify (newRejectedRequest i)
        else
          let made ← Prog.update (newRequest i rootCid selector extensions)
          match made with
          | none => pure ()
          | some request =>
            Prog.modify (trackRequest i rootCid request.requestId)
            Prog.when (0 < request.requestId)
              (networkMakeRequest peer address request.requestId request.body)

/-- Cancelling a `Subscription`. -/
def unsubscribe (i : InstanceId) (ticket : RequestId) : Action Unit := do
  let s ← Prog.get
  let dropped := (s.instances i).localRequests.unsubscribe ticket
  Prog.modify (setLocal i dropped.1)
  match dropped.2 with
  | none => pure ()
  | some (id, body) => networkCancelRequest id body

def isStalled (now : ℕ) (info : RequestTrackingInfo) : Bool :=
  kRequestActivityTimeoutMs < now - info.lastActivityTime ||
    kRequestActivityTimeoutMs * 2 < now - info.startTime

/-- One turn of the loop of `cleanupOldRequests`. The entry is removed in any case but one. -/
def cleanupRequest (i : InstanceId) (now : ℕ) (rootCid : CID) : Action Unit := do
  let s ← Prog.get
  match (s.instances i).trackedRequests.find? rootCid with
  | none => pure ()
  | some info =>
    if info.state ≠ .inProgress then
      Prog.modify fun s => s.setTracked i ((s.instances i).trackedRequests.erase rootCid)
    else if isStalled now info then
      Prog.modify (modifyTracked i rootCid fun info => { info with state := .failed })
      localOnResponse i info.requestId .timeout [] .cleanup
      Prog.modify fun s => s.setTracked i ((s.instances i).trackedRequests.erase rootCid)

def cleanupOldRequests (i : InstanceId) : Action Unit :=
  withLock i do
    let s ← Prog.get
    (s.instances i).trackedRequests.entries.forM fun e => cleanupRequest i s.now e.1

def getRequestState (i : InstanceId) (rootCid : CID) : Action (Option RequestState) :=
  withLock i (Prog.update fun s =>
    (s, ((s.instances i).trackedRequests.find? rootCid).map RequestTrackingInfo.state))

structure RequestInfo where
  state : RequestState
  requestId : RequestId
  timeSinceStart : ℕ
  timeSinceActivity : ℕ
  deriving DecidableEq

def getRequestInfo (i : InstanceId) (rootCid : CID) : Action (Option RequestInfo) :=
  withLock i (Prog.update fun s =>
    (s, ((s.instances i).trackedRequests.find? rootCid).map fun info =>
      ⟨info.state, info.requestId, s.now - info.startTime, s.now - info.lastActivityTime⟩))

/-! ## The operations of the node -/

/-- What reaches a context not through the network: its streams, its timer, its queues. -/
inductive Event where
  | streamConnected (rstream : Option StreamPtr)
  | windowAdjusted (stream : StreamPtr) (result : Bool)
  | readerEvent (stream : StreamPtr) (msg : Option Message)
  | messageWritten (stream : StreamPtr) (res : MessageQueue.WriteResult)
  | timer
  | world (w : World)

def Event.toOp : Event → PeerContext.Op
  | .streamConnected rstream => .streamConnected rstream
  | .windowAdjusted stream result => .windowAdjusted stream result
  | .readerEvent stream msg => .readerEvent stream msg
  | .messageWritten stream res => .messageWritten stream res
  | .timer => .timer
  | .world w => .world w

inductive Op where
  | start (i : InstanceId)
  | stop (i : InstanceId)
  | makeRequest (i : InstanceId) (peer : PeerId) (address : Option (List Multiaddress))
      (rootCid : CID) (selector : Bytes) (extensions : List Extension)
  | unsubscribe (i : InstanceId) (ticket : RequestId)
  | getRequestState (i : InstanceId) (rootCid : CID)
  | getRequestInfo (i : InstanceId) (rootCid : CID)
  | tick (now : ℕ)
  | cleanupOldRequests (i : InstanceId)
  | notifyRejected (i : InstanceId)
  | streamAccepted (peer : PeerId) (stream : StreamPtr)
  | event (c : ContextId) (e : Event)
  | addBlockToResponse (peer : PeerId) (id : RequestId) (cid : CID) (data : Bytes)
  | sendResponse (peer : PeerId) (id : RequestId) (status : ResponseStatusCode)
      (extensions : List Extension)
  | keepPeerAlive (peer : PeerId)

/-- What a callback of the user may do; the others are started by the host, the scheduler or a
posted task. -/
def Op.byUser : Op → Bool
  | start _ | stop _ | makeRequest _ _ _ _ _ _ | unsubscribe _ _ | getRequestState _ _
  | getRequestInfo _ _ | tick _ => true
  | _ => false

def op : Op → Action Unit
  | .start i => start i
  | .stop i => doStop i
  | .makeRequest i peer address rootCid selector extensions =>
    makeRequest i peer address rootCid selector extensions
  | .unsubscribe i ticket => unsubscribe i ticket
  | .getRequestState i rootCid => do
    let _ ← getRequestState i rootCid
  | .getRequestInfo i rootCid => do
    let _ ← getRequestInfo i rootCid
  | .tick now => Prog.modify fun s => { s with now := now }
  | .cleanupOldRequests i => cleanupOldRequests i
  | .notifyRejected i => notifyRejected i
  | .streamAccepted peer stream => networkOnStreamAccepted peer stream
  | .event c e => do
    let s ← Prog.get
    if c < s.contexts.length then onContext c (PeerContext.op e.toOp)
  | .addBlockToResponse peer id cid data => networkAddBlockToResponse peer id cid data
  | .sendResponse peer id status extensions => networkSendResponse peer id status extensions
  | .keepPeerAlive peer => onPeer peer (pure ())

def enabled (pending : List Call) (o : Op) : Bool := pending.isEmpty || o.byUser

def step : Config Node Call → Move Op → Option (Config Node Call) := Config.step op enabled

end Node
end IpfsLite.Graphsync
