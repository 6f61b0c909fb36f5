import IpfsLite.Foundations.Completion
import IpfsLite.Foundations.EventLog
import IpfsLite.Graphsync.LocalRequests

/-! # `LocalRequests` under re-entrancy

The tables of callbacks as a re-entrant component. A callback is named by the number of its request,
so two requests that get the same id one after the other have different callbacks. Everything may be
called from within a callback, the notification of rejected requests included. -/
namespace IpfsLite.Graphsync
set_option autoImplicit false

open Reentrant EventLog

/-- What happens to the requests: one is made and gets a ticket, its callback is called, a ticket is
passed to `unsubscribe`. -/
inductive RequestEvent
  | made (r : ℕ) (ticket : RequestId)
  | progress (r : ℕ) (status : ResponseStatusCode)
  | unsubscribed (ticket : RequestId)
  deriving DecidableEq

structure RequestTable where
  requests : LocalRequests
  /-- the callbacks kept in `active_requests_` and in `rejected_requests_` -/
  activeCallback : RequestId → ℕ
  rejectedCallback : RequestId → ℕ
  /-- calls of `asyncNotifyRejectedRequests` that the scheduler has not made -/
  scheduled : ℕ
  made : ℕ
  /-- history: swapped out of a table by `cancelAll` and not called yet -/
  detached : List ℕ
  /-- history -/
  log : List RequestEvent

namespace RequestTable

inductive Call
  | progress (r : ℕ) (status : ResponseStatusCode) (extensions : List Extension)
  /-- `cancel_fn_` -/
  | cancel (id : RequestId) (body : Option Bytes)
  deriving DecidableEq

abbrev Action (α : Type) := Prog RequestTable Call α

def initial : RequestTable := ⟨.initial, fun _ => 0, fun _ => 0, 0, 0, [], []⟩

/-! ## Requests -/

/-- The callback goes into `active_requests_`. -/
def keepActive (requests : LocalRequests) (id : RequestId) (s : RequestTable) : RequestTable where
  requests := requests
  activeCallback := Function.update s.activeCallback id s.made
  rejectedCallback := s.rejectedCallback
  scheduled := s.scheduled
  made := s.made + 1
  detached := s.detached
  log := s.log ++ [.made s.made id]

/-- The callback goes into `rejected_requests_`. `rejected_notify_scheduled_` is never set, so every
rejected request schedules a notification. -/
def keepRejected (requests : LocalRequests) (s : RequestTable) : RequestTable where
  requests := requests
  activeCallback := s.activeCallback
  rejectedCallback := Function.update s.rejectedCallback requests.currentRejectedRequestId s.made
  scheduled := s.scheduled + 1
  made := s.made + 1
  detached := s.detached
  log := s.log ++ [.made s.made requests.currentRejectedRequestId]

def newRejectedRequest : Action Unit :=
  Prog.modify fun s => s.keepRejected s.requests.newRejectedRequest

def addRequest (g : IdGenerator) (rootCid : CID) (selector : Bytes) (extensions : List Extension)
    (s : RequestTable) : RequestTable :=
  let made := s.requests.newRequest g rootCid selector extensions
  match made.2 with
  | none => { s with requests := made.1.1 }
  | some request =>
    if request.body = [] then s.keepRejected made.1.1 else s.keepActive made.1.1 request.requestId

def newRequest (g : IdGenerator) (rootCid : CID) (selector : Bytes) (extensions : List Extension) :
    Action Unit :=
  Prog.modify (addRequest g rootCid selector extensions)

/-! ## Callbacks -/

def note (e : RequestEvent) (s : RequestTable) : RequestTable := { s with log := s.log ++ [e] }

def tell (r : ℕ) (status : ResponseStatusCode) (extensions : List Extension) : Action Unit := do
  Prog.modify (note (.progress r status))
  Prog.call (.progress r status extensions)

def setRequests (requests : LocalRequests) (s : RequestTable) : RequestTable :=
  { s with requests := requests }

def onResponse (id : RequestId) (status : ResponseStatusCode) (extensions : List Extension) :
    Action Unit := do
  let s ← Prog.get
  let answered := s.requests.onResponse id status
  Prog.modify (setRequests answered.1)
  Prog.when (answered.2 = true) (tell (s.activeCallback id) status extensions)

def detach (callbacks : List ℕ) (requests : LocalRequests) (s : RequestTable) : RequestTable :=
  { s with requests := requests, detached := callbacks ++ s.detached }

/-- The loop of `cancelAll( RequestMap & )`. -/
def cancelLoop (callbacks : List ℕ) : Action Unit :=
  callbacks.forM fun r => do
    Prog.modify fun s => { s with detached := s.detached.erase r }
    tell r .rejectedLocally []

def activeCallbacks (s : RequestTable) : List ℕ := s.requests.activeRequests.keys.map s.activeCallback

def rejectedCallbacks (s : RequestTable) : List ℕ :=
  s.requests.rejectedRequests.keys.map s.rejectedCallback

/-- `cancelAll( active_requests_ )`. -/
def cancelActive : Action Unit := do
  let s ← Prog.get
  Prog.modify (detach s.activeCallbacks { s.requests with activeRequests := .empty })
  cancelLoop s.activeCallbacks

/-- `cancelAll( rejected_requests_ )`. -/
def cancelRejected : Action Unit := do
  let s ← Prog.get
  Prog.modify (detach s.rejectedCallbacks { s.requests with rejectedRequests := .empty })
  cancelLoop s.rejectedCallbacks

def cancelAll : Action Unit := do
  cancelActive
  cancelRejected

def resetRejectedIds (s : RequestTable) : RequestTable :=
  if s.requests.rejectedRequests.isEmpty then
    { s with requests := { s.requests with currentRejectedRequestId := 0 } }
  else s

/-- What `asyncNotifyRejectedRequests` schedules. -/
def notifyRejected : Action Unit := do
  let s ← Prog.get
  Prog.when (0 < s.scheduled) do
    Prog.modify fun s => { s with scheduled := s.scheduled - 1 }
    cancelRejected
    Prog.modify resetRejectedIds

def unsubscribe (ticket : RequestId) : Action Unit := do
  let s ← Prog.get
  let dropped := s.requests.unsubscribe ticket
  Prog.modify (setRequests dropped.1)
  Prog.modify (note (.unsubscribed ticket))
  match dropped.2 with
  | none => pure ()
  | some (id, body) => Prog.call (.cancel id body)

theorem unsubscribe_none {s : RequestTable} {ticket : RequestId} (h : (s.requests.unsubscribe ticket).2 = none) :
    unsubscribe ticket s = .done () (note (.unsubscribed ticket) (s.setRequests (s.requests.unsubscribe ticket).1)) := by
  simp only [unsubscribe, Prog.bind_apply, Prog.get_apply, Prog.modify_apply, Res.bind_done, h]
  rfl

theorem unsubscribe_some {s : RequestTable} {ticket id : RequestId} {body : Option Bytes}
    (h : (s.requests.unsubscribe ticket).2 = some (id, body)) : unsubscribe ticket s =
      Prog.call (.cancel id body) (note (.unsubscribed ticket) (s.setRequests (s.requests.unsubscribe ticket).1)) := by
  simp only [unsubscribe, Prog.bind_apply, Prog.get_apply, Prog.modify_apply, Res.bind_done, h]

inductive Op
  | newRequest (g : IdGenerator) (rootCid : CID) (selector : Bytes) (extensions : List Extension)
  | newRejectedRequest
  | onResponse (id : RequestId) (status : ResponseStatusCode) (extensions : List Extension)
  | unsubscribe (ticket : RequestId)
  | notifyRejected
  | cancelAll

def op : Op → Action Unit
  | .newRequest g rootCid selector extensions => newRequest g rootCid selector extensions
  | .newRejectedRequest => newRejectedRequest
  | .onResponse id status extensions => onResponse id status extensions
  | .unsubscribe ticket => unsubscribe ticket
  | .notifyRejected => notifyRejected
  | .cancelAll => cancelAll

def enabled : List Call → Op → Bool := fun _ _ => true

abbrev step : Config RequestTable Call → Move Op → Option (Config RequestTable Call) :=
  Config.step op enabled

/-! ## Events that end a request -/

/-- The callback of `r` is called. -/
def IsProgress (r : ℕ) : RequestEvent → Prop
  | .progress r' _ => r' = r
  | _ => False

/-- It gets its final word. -/
def Ends (r : ℕ) (_ : List RequestEvent) : RequestEvent → Prop
  | .progress r' status => r' = r ∧ isTerminal status = true
  | _ => False

/-- Its ticket is passed to `unsubscribe`. -/
def Cancels (r : ℕ) (before : List RequestEvent) : RequestEvent → Prop
  | .unsubscribed ticket => .made r ticket ∈ before
  | _ => False

end RequestTable
end IpfsLite.Graphsync
