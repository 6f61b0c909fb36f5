import IpfsLite.Foundations.AssocMap
import IpfsLite.Foundations.OrdMap
import IpfsLite.Graphsync.Marshalling
import IpfsLite.Graphsync.RequestIdGenerator

/-! # `LocalRequests`

The requests of one `GraphsyncImpl`. A progress callback is named by the instance and the id it is
kept under, so the maps of callbacks are sets of ids; calling it is left to the caller. -/
namespace IpfsLite.Graphsync
set_option autoImplicit false

structure LocalRequests where
  activeRequests : OrdMap RequestId Unit
  rejectedRequests : OrdMap RequestId Unit
  requestBuilder : MessageBuilder
  currentRejectedRequestId : ℤ
  requestToCid : AssocMap RequestId CID

/-- The part of the shared generator that makes ids. -/
abbrev IdGenerator := RequestIdGenerator Empty

namespace LocalRequests

def initial : LocalRequests := ⟨.empty, .empty, .initial, 0, .empty⟩

/-- The ids from 1 on in the order in which `++id` takes them on an `int32_t`; 0 comes last. -/
def searchOrder (k : ℕ) : RequestId := Int.bmod (k + 1 : ℕ) (2 ^ 32)

/-- The first id from 1 on that is not active, 0 when the ids are exhausted. -/
def firstUnused (l : LocalRequests) : RequestId :=
  (((List.range (l.activeRequests.entries.length + 1)).map searchOrder).find? fun id =>
    id = 0 || !l.activeRequests.contains id).getD 0

def nextRequestId (l : LocalRequests) (g : IdGenerator) : RequestId × IdGenerator :=
  let next := g.next
  if 0 < next.1 ∧ l.activeRequests.contains next.1 = false then next else (l.firstUnused, next.2)

def newRejectedRequest (l : LocalRequests) : LocalRequests :=
  let id := l.currentRejectedRequestId - 1
  { l with
      currentRejectedRequestId := id
      rejectedRequests := l.rejectedRequests.insert id () }

structure NewRequest where
  requestId : RequestId
  /-- empty when the request is rejected -/
  body : Bytes

def rejectNew (l : LocalRequests) : LocalRequests × NewRequest :=
  let l := l.newRejectedRequest
  (l, ⟨l.currentRejectedRequestId, []⟩)

/-- `none` when `addRequest` throws. -/
def newRequest (l : LocalRequests) (g : IdGenerator) (rootCid : CID) (selector : Bytes)
    (extensions : List Extension) : (LocalRequests × IdGenerator) × Option NewRequest :=
  let next := l.nextRequestId g
  if next.1 = 0 then
    let rejected := l.rejectNew
    ((rejected.1, next.2), some rejected.2)
  else
    let added := l.requestBuilder.addRequest next.1 rootCid selector extensions
    if added.2 = false then (({ l with requestBuilder := added.1 }, next.2), none)
    else
      match added.1.serialize with
      | none =>
        let rejected := { l with requestBuilder := .initial }.rejectNew
        ((rejected.1, next.2), some rejected.2)
      | some body =>
        (({ l with
              requestBuilder := .initial
              activeRequests := l.activeRequests.insert next.1 ()
              requestToCid := l.requestToCid.insert next.1 rootCid }, next.2), some ⟨next.1, body⟩)

/-- Whether the callback of the request is to be called. -/
def onResponse (l : LocalRequests) (id : RequestId) (status : ResponseStatusCode) :
    LocalRequests × Bool :=
  if l.activeRequests.contains id = false then (l, false)
  else if isTerminal status then ({ l with activeRequests := l.activeRequests.erase id }, true)
  else (l, true)

/-- What `cancel_fn_` is called with, if it is called: the body is `none` when it could not be
serialized. -/
def unsubscribe (l : LocalRequests) (ticket : RequestId) :
    LocalRequests × Option (RequestId × Option Bytes) :=
  if ticket < 0 then ({ l with rejectedRequests := l.rejectedRequests.erase ticket }, none)
  else if l.activeRequests.contains ticket = false then (l, none)
  else
    ({ l with
        activeRequests := l.activeRequests.erase ticket
        requestBuilder := .initial },
      some (ticket, (l.requestBuilder.addCancelRequest ticket).serialize))

def getRequestRootCid (l : LocalRequests) (id : RequestId) : Option CID := l.requestToCid.find? id

/-! ## What comes of a request -/

theorem nextRequestId_fresh (l : LocalRequests) (g : IdGenerator) :
    (l.nextRequestId g).1 = 0 ∨ l.activeRequests.contains (l.nextRequestId g).1 = false := by
  unfold nextRequestId
  by_cases hnext : 0 < g.next.1 ∧ l.activeRequests.contains g.next.1 = false
  · simp only [if_pos hnext]
    exact .inr hnext.2
  · simp only [if_neg hnext]
    unfold firstUnused
    cases hfind : ((List.range (l.activeRequests.entries.length + 1)).map searchOrder).find? fun id =>
        decide (id = 0) || !l.activeRequests.contains id with
    | none => exact .inl rfl
    | some id =>
      have hid := List.find?_some hfind
      rw [Bool.or_eq_true, decide_eq_true_iff, Bool.not_eq_true'] at hid
      exact hid

/-- The builder with the entry of the request. -/
def withRequest (l : LocalRequests) (g : IdGenerator) (rootCid : CID) (selector : Bytes)
    (extensions : List Extension) : MessageBuilder × Bool :=
  l.requestBuilder.addRequest (l.nextRequestId g).1 rootCid selector extensions

/-- What comes of a request: an exception, a rejected one, an active one. -/
theorem newRequest_cases (l : LocalRequests) (g : IdGenerator) (rootCid : CID) (selector : Bytes)
    (extensions : List Extension) {l' : LocalRequests} {made : Option NewRequest}
    (hl : (l.newRequest g rootCid selector extensions).1.1 = l')
    (hmade : (l.newRequest g rootCid selector extensions).2 = made) :
    (made = none ∧ l' = { l with requestBuilder := (l.withRequest g rootCid selector extensions).1 } ∧
      (l.withRequest g rootCid selector extensions).2 = false) ∨
    (made = some ⟨l.currentRejectedRequestId - 1, []⟩ ∧ l'.activeRequests = l.activeRequests ∧
      l'.rejectedRequests = l.rejectedRequests.insert (l.currentRejectedRequestId - 1) () ∧
      l'.currentRejectedRequestId = l.currentRejectedRequestId - 1 ∧ l'.requestToCid = l.requestToCid ∧
      ((l.nextRequestId g).1 = 0 ∨ (l.withRequest g rootCid selector extensions).2 = true ∧
        (l.withRequest g rootCid selector extensions).1.serialize = none)) ∨
    (∃ id body, made = some ⟨id, body⟩ ∧ body ≠ [] ∧ l.activeRequests.contains id = false ∧
      l'.activeRequests = l.activeRequests.insert id () ∧ l'.rejectedRequests = l.rejectedRequests ∧
      l'.currentRejectedRequestId = l.currentRejectedRequestId ∧
      l'.requestToCid = l.requestToCid.insert id rootCid ∧ id ≠ 0 ∧ (l.nextRequestId g).1 = id) := by
  subst hl hmade
  have hfresh := nextRequestId_fresh l g
  unfold newRequest
  by_cases hzero : (l.nextRequestId g).1 = 0
  · simp only [if_pos hzero]
    exact .inr (.inl ⟨rfl, rfl, rfl, rfl, rfl, .inl hzero⟩)
  · have hnew : l.activeRequests.contains (l.nextRequestId g).1 = false := hfresh.resolve_left hzero
    simp only [if_neg hzero]
    by_cases hadded : (l.requestBuilder.addRequest (l.nextRequestId g).1 rootCid selector extensions).2 = false
    · simp only [if_pos hadded]
      exact .inl ⟨trivial, rfl, hadded⟩
    · simp only [if_neg hadded]
      cases hbody : (l.requestBuilder.addRequest (l.nextRequestId g).1 rootCid selector extensions).1.serialize with
      | none => exact .inr (.inl ⟨rfl, rfl, rfl, rfl, rfl, .inr ⟨Bool.eq_true_of_not_eq_false hadded, hbody⟩⟩)
      | some body =>
        exact .inr (.inr ⟨_, body, rfl, MessageBuilder.serialize_ne_nil hbody, hnew, rfl, rfl, rfl, rfl, hzero, rfl⟩)

/-- An exception leaves one more entry in the builder. -/
theorem withRequest_length (l : LocalRequests) (g : IdGenerator) (rootCid : CID) (selector : Bytes)
    (extensions : List Extension) :
    (l.withRequest g rootCid selector extensions).1.pbMsg.requests.length =
      l.requestBuilder.pbMsg.requests.length + 1 := by
  unfold withRequest MessageBuilder.addRequest
  cases rootCid.toBytes <;> simp

end LocalRequests
end IpfsLite.Graphsync
