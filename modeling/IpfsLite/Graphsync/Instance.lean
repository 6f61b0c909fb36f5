import IpfsLite.Graphsync.Node

/-! # One instance

What the operations of the node do to the tables of one `GraphsyncImpl`, as steps between which the
user may be called: `requested_cids_mutex_` is held for the first part of most of them, and the
callback comes after the last. The clock and the id generator are the node's. -/
namespace IpfsLite.Graphsync.GraphsyncImpl
set_option autoImplicit false

open Node (trackResponse completeRequest isStalled)

def initial : GraphsyncImpl := ⟨false, .initial, .empty⟩

def modifyTracked (g : GraphsyncImpl) (rootCid : CID) (f : RequestTrackingInfo → RequestTrackingInfo) :
    GraphsyncImpl :=
  { g with trackedRequests := g.trackedRequests.modify rootCid f }

def untrack (g : GraphsyncImpl) (rootCid : CID) : GraphsyncImpl :=
  { g with trackedRequests := g.trackedRequests.erase rootCid }

def isInProgress (g : GraphsyncImpl) (rootCid : CID) : Bool :=
  (g.trackedRequests.find? rootCid).any fun info => info.state = .inProgress

def localResponse (g : GraphsyncImpl) (id : RequestId) (status : ResponseStatusCode) : GraphsyncImpl :=
  { g with localRequests := (g.localRequests.onResponse id status).1 }

/-- `newRejectedRequest`. -/
def reject (g : GraphsyncImpl) : GraphsyncImpl :=
  { g with localRequests := g.localRequests.newRejectedRequest }

/-- `makeRequest` of an instance that is started, to a peer that can be asked, up to the network. -/
def makeRequest (g : GraphsyncImpl) (now : ℕ) (generator : IdGenerator) (rootCid : CID) (selector : Bytes)
    (extensions : List Extension) : GraphsyncImpl :=
  if g.isInProgress rootCid then g.reject
  else
    let made := g.localRequests.newRequest generator rootCid selector extensions
    let g := { g with localRequests := made.1.1 }
    match made.2 with
    | none => g
    | some request =>
      { g with trackedRequests :=
          g.trackedRequests.insert rootCid ⟨.inProgress, request.requestId, now, now⟩ }

def onResponse (g : GraphsyncImpl) (now : ℕ) (id : RequestId) (status : ResponseStatusCode) :
    GraphsyncImpl :=
  match g.localRequests.getRequestRootCid id with
  | none => g.localResponse id status
  | some rootCid => (g.modifyTracked rootCid (trackResponse now status)).localResponse id status

/-- `cleanupOldRequests` on a stalled entry, up to the callback. -/
def failStalled (g : GraphsyncImpl) (rootCid : CID) (id : RequestId) : GraphsyncImpl :=
  (g.modifyTracked rootCid fun info => { info with state := .failed }).localResponse id .timeout

inductive Step where
  | start
  | stop
  /-- the tables are cleared when the network has been left -/
  | cleared
  | makeRequest (now : ℕ) (generator : IdGenerator) (rootCid : CID) (selector : Bytes)
      (extensions : List Extension)
  /-- a request that is turned down before the table is looked at -/
  | reject
  | onResponse (now : ℕ) (id : RequestId) (status : ResponseStatusCode)
  | onBlock (now : ℕ) (rootCid : CID)
  /-- `block_cb_` has returned -/
  | blockProcessed (rootCid : CID)
  | unsubscribe (ticket : RequestId)
  | cleanupStalled (now : ℕ) (rootCid : CID)
  /-- the rest of `cleanupOldRequests` on a root -/
  | cleanupRemove (rootCid : CID)
  | cancelRejected
  | resetRejectedIds

/-- `none` where the code does not get to the step. -/
def step (g : GraphsyncImpl) : Step → Option GraphsyncImpl
  | .start => some { g with started := true }
  | .stop => some { g with started := false }
  | .cleared =>
    some { g with
      trackedRequests := .empty
      localRequests := { g.localRequests with activeRequests := .empty } }
  | .makeRequest now generator rootCid selector extensions =>
    if g.started then some (g.makeRequest now generator rootCid selector extensions) else none
  | .reject => some g.reject
  | .onResponse now id status => if g.started then some (g.onResponse now id status) else none
  | .onBlock now rootCid =>
    if g.started then some (g.modifyTracked rootCid fun info => { info with lastActivityTime := now })
    else none
  | .blockProcessed rootCid => some (g.modifyTracked rootCid completeRequest)
  | .unsubscribe ticket => some { g with localRequests := (g.localRequests.unsubscribe ticket).1 }
  | .cleanupStalled now rootCid =>
    match g.trackedRequests.find? rootCid with
    | none => none
    | some info =>
      if info.state = .inProgress ∧ isStalled now info = true then
        some (g.failStalled rootCid info.requestId)
      else none
  | .cleanupRemove rootCid => some (g.untrack rootCid)
  | .cancelRejected =>
    some { g with localRequests := { g.localRequests with rejectedRequests := .empty } }
  | .resetRejectedIds =>
    if g.localRequests.rejectedRequests.isEmpty then
      some { g with localRequests := { g.localRequests with currentRejectedRequestId := 0 } }
    else none

end IpfsLite.Graphsync.GraphsyncImpl
