import IpfsLite.Foundations.Runs
import IpfsLite.Graphsync.Message
import IpfsLite.Graphsync.RequestIdGenerator

/-! # Answering remote requests

`GraphsyncImpl::onRemoteRequest` of all the instances of a node. `PeerContext::onRequest` hands an
accepted request to every feedback while it holds the context's `state_mutex_`, each feedback
registers a status holder and posts a task to a thread pool, and the tasks race: `advance` is one
atomic step of one task, a critical section of the `RequestIdGenerator`, of the peer's context, or
a plain write. A step that needs the context's mutex is not enabled while its loop runs. -/
namespace IpfsLite.Graphsync.Responder
set_option autoImplicit false

/-- What `getNode`/`select` gives one instance for one request: the nodes it passes to the
handler and the count it returns, `none` for an error. -/
structure Lookup where
  blocks : List Block
  result : Option ℕ
  deriving DecidableEq

def Lookup.found (l : Lookup) : Bool := match l.result with
  | some (_ + 1) => true
  | _ => false

def Lookup.missing (l : Lookup) : Bool := l.result = some 0

theorem Lookup.found_of_missing {l : Lookup} (h : l.missing = true) : l.found = false := by
  have hr : l.result = some 0 := of_decide_eq_true h
  rw [Lookup.found, hr]

/-- The remote requests `q : Q` that may arrive. `width q` is the number of live feedbacks of the
context of `peer q`, and `lookup q k` is what the `k`-th of them finds. -/
structure Workload (Q : Type) where
  peer : Q → PeerId
  request : Q → Message.Request
  width : Q → ℕ
  inst : Q → ℕ → InstanceId
  lookup : Q → ℕ → Lookup

def Workload.id {Q : Type} (W : Workload Q) (q : Q) : RequestId := (W.request q).id

/-- Where the `k`-th feedback's handling of a request stands. -/
inductive TaskPc where
  /-- `onRemoteRequest` not called yet -/
  | absent
  /-- status holder registered, task posted -/
  | posted
  | selecting (rest : List Block)
  /-- `addBlockToResponse` returned false, `send_response` is false -/
  | refused
  /-- `RS_REQUEST_FAILED` written, `removeStatus` is next -/
  | removing
  /-- `RS_NOT_FOUND` written, `allStatusesNotFound` is next -/
  | checking
  | answering (status : ResponseStatusCode)
  /-- the response is passed on, `removeRequest` is next -/
  | forgetting
  | finished
  deriving DecidableEq

inductive Output where
  | block (peer : PeerId) (id : RequestId) (b : Block)
  | response (peer : PeerId) (id : RequestId) (status : ResponseStatusCode)
      (extensions : List Extension)
  deriving DecidableEq

def Output.peer : Output → PeerId
  | .block p _ _ => p
  | .response p _ _ _ => p

structure State (Q : Type) where
  gen : RequestIdGenerator (Q × ℕ)
  pc : Q × ℕ → TaskPc
  arrived : Q → Bool
  /-- the next iteration of the loop over the feedbacks in `PeerContext::onRequest` -/
  calling : PeerId → Option (Q × ℕ)
  /-- the id is in `remote_requests_streams_` of the peer's context and its stream is open -/
  sink : PeerId → RequestId → Bool
  started : InstanceId → Bool
  alive : InstanceId → Bool
  /-- what reached the `InboundEndpoint`s, in order -/
  out : List Output

inductive Action (Q : Type) where
  /-- `PeerContext::onRequest` of a request that is not a cancel -/
  | accept (q : Q)
  /-- one iteration of its loop: `onRemoteRequest` of the `k`-th feedback -/
  | call (q : Q) (k : ℕ)
  /-- a cancel from the peer, or the end of the request's stream -/
  | drop (peer : PeerId) (id : RequestId)
  | advance (q : Q) (k : ℕ)
  | stop (i : InstanceId)
  | destroy (i : InstanceId)

variable {Q : Type} [DecidableEq Q]

def initial : State Q :=
  ⟨.initial, fun _ => .absent, fun _ => false, fun _ => none, fun _ _ => false, fun _ => true, fun _ => true, []⟩

def setPc (s : State Q) (q : Q) (k : ℕ) (pc : TaskPc) : State Q :=
  { s with pc := Function.update s.pc (q, k) pc }

def setGen (s : State Q) (g : RequestIdGenerator (Q × ℕ)) : State Q := { s with gen := g }

def emit (s : State Q) (o : Output) : State Q := { s with out := s.out ++ [o] }

/-- `PeerContext::sendResponse`: nothing without a response sink. -/
def sendResponse (s : State Q) (p : PeerId) (id : RequestId) (status : ResponseStatusCode)
    (extensions : List Extension) : State Q :=
  if s.sink p id then emit s (.response p id status extensions) else s

omit [DecidableEq Q] in
theorem sendResponse_of_sink {s : State Q} {p : PeerId} {id : RequestId} (h : s.sink p id = true)
    (status : ResponseStatusCode) (extensions : List Extension) :
    sendResponse s p id status extensions = emit s (.response p id status extensions) := if_pos h

omit [DecidableEq Q] in
theorem sendResponse_of_no_sink {s : State Q} {p : PeerId} {id : RequestId}
    (h : s.sink p id = false) (status : ResponseStatusCode) (extensions : List Extension) :
    sendResponse s p id status extensions = s := if_neg (by simp [h])

def markArrived (s : State Q) (q : Q) : State Q :=
  { s with arrived := Function.update s.arrived q true }

def setSink (s : State Q) (p : PeerId) (id : RequestId) (isOpen : Bool) : State Q :=
  { s with sink := Function.update s.sink p (Function.update (s.sink p) id isOpen) }

/-- The loop of `p` goes on with feedback `k` of `q`, or ends. -/
def setCalling (W : Workload Q) (s : State Q) (p : PeerId) (q : Q) (k : ℕ) : State Q :=
  { s with calling := Function.update s.calling p (if k < W.width q then some (q, k) else none) }

def accept (W : Workload Q) (s : State Q) (q : Q) : Option (State Q) :=
  if s.arrived q ∨ s.calling (W.peer q) ≠ none then none
  else if s.sink (W.peer q) (W.id q) then
    -- the id is already in remote_requests_streams_
    some (sendResponse (markArrived s q) (W.peer q) (W.id q) .rejected [])
  else some (setCalling W (setSink (markArrived s q) (W.peer q) (W.id q) true) (W.peer q) q 0)

def call (W : Workload Q) (s : State Q) (q : Q) (k : ℕ) : Option (State Q) :=
  if s.calling (W.peer q) ≠ some (q, k) then none
  else if s.started (W.inst q k) then
    some (setCalling W (setPc (setGen s (s.gen.registerStatus (W.id q) (q, k))) q k .posted)
      (W.peer q) q (k + 1))
  else some (setCalling W (setPc s q k .finished) (W.peer q) q (k + 1))

/-- A step of a task that calls into the context: `keepPeerAlive` takes its mutex first. -/
def locked (W : Workload Q) (s : State Q) (q : Q) (next : State Q) : Option (State Q) :=
  if s.calling (W.peer q) = none then some next else none

def advance (W : Workload Q) (s : State Q) (q : Q) (k : ℕ) : Option (State Q) :=
  match s.pc (q, k) with
  | .absent => none
  | .posted =>
    if !s.alive (W.inst q k) then some (setPc s q k .finished)
    else if !s.started (W.inst q k) then
      some (setPc (setGen s (s.gen.removeStatus (W.id q) (q, k))) q k .finished)
    else locked W s q (setPc s q k (.selecting (W.lookup q k).blocks))
  | .selecting (b :: rest) =>
    if b.2.isEmpty then some (setPc s q k (.selecting rest))
    else if s.sink (W.peer q) (W.id q) then
      locked W s q (setPc (emit s (.block (W.peer q) (W.id q) b)) q k (.selecting rest))
    else locked W s q (setPc s q k .refused)
  | .selecting [] =>
    match (W.lookup q k).result with
    | none => some (setPc (setGen s (s.gen.setStatus (q, k) .requestFailed)) q k .removing)
    | some 0 => some (setPc (setGen s (s.gen.setStatus (q, k) .notFound)) q k .checking)
    | some (_ + 1) =>
      some (setPc (setGen s (s.gen.setStatus (q, k) .fullContent)) q k
        (.answering .fullContent))
  | .refused =>
    some (setPc (setGen s (s.gen.setStatus (q, k) .requestFailed)) q k .removing)
  | .removing => some (setPc (setGen s (s.gen.removeStatus (W.id q) (q, k))) q k .finished)
  | .checking =>
    if s.gen.allStatusesNotFound (W.id q) then some (setPc s q k (.answering .notFound))
    else some (setPc s q k .finished)
  | .answering status =>
    -- a stopped instance skips the response, the request is forgotten all the same
    if s.started (W.inst q k) then
      locked W s q (setPc (sendResponse s (W.peer q) (W.id q) status (W.request q).extensions) q k
        .forgetting)
    else locked W s q (setPc s q k .forgetting)
  | .forgetting => some (setPc (setGen s (s.gen.removeRequest (W.id q))) q k .finished)
  | .finished => none

def step (W : Workload Q) (s : State Q) : Action Q → Option (State Q)
  | .accept q => accept W s q
  | .call q k => call W s q k
  | .drop p id => if s.calling p = none then some (setSink s p id false) else none
  | .advance q k => advance W s q k
  | .stop i => some { s with started := Function.update s.started i false }
  | .destroy i => some { s with alive := Function.update s.alive i false }

/-! ## The steps of a task -/

/-- Everything `advance` may do, with what is known when it does it. -/
inductive TaskStep (W : Workload Q) (s : State Q) (q : Q) (k : ℕ) : State Q → Prop where
  | gone (pc : s.pc (q, k) = .posted) (dead : s.alive (W.inst q k) = false) :
    TaskStep W s q k (setPc s q k .finished)
  | late (pc : s.pc (q, k) = .posted) (stopped : s.started (W.inst q k) = false) :
    TaskStep W s q k (setPc (setGen s (s.gen.removeStatus (W.id q) (q, k))) q k .finished)
  | begins (pc : s.pc (q, k) = .posted) (free : s.calling (W.peer q) = none) :
    TaskStep W s q k (setPc s q k (.selecting (W.lookup q k).blocks))
  | skipped {b : Block} {rest : List Block} (pc : s.pc (q, k) = .selecting (b :: rest)) :
    TaskStep W s q k (setPc s q k (.selecting rest))
  | passed {b : Block} {rest : List Block} (pc : s.pc (q, k) = .selecting (b :: rest))
      (free : s.calling (W.peer q) = none) :
    TaskStep W s q k (setPc (emit s (.block (W.peer q) (W.id q) b)) q k (.selecting rest))
  | refuses {b : Block} {rest : List Block} (pc : s.pc (q, k) = .selecting (b :: rest))
      (free : s.calling (W.peer q) = none) (noSink : s.sink (W.peer q) (W.id q) = false) :
    TaskStep W s q k (setPc s q k .refused)
  | failed (pc : s.pc (q, k) = .selecting []) (result : (W.lookup q k).result = none) :
    TaskStep W s q k (setPc (setGen s (s.gen.setStatus (q, k) .requestFailed)) q k .removing)
  | missing (pc : s.pc (q, k) = .selecting []) (result : (W.lookup q k).missing = true) :
    TaskStep W s q k (setPc (setGen s (s.gen.setStatus (q, k) .notFound)) q k .checking)
  | found (pc : s.pc (q, k) = .selecting []) (result : (W.lookup q k).found = true) :
    TaskStep W s q k (setPc (setGen s (s.gen.setStatus (q, k) .fullContent)) q k
      (.answering .fullContent))
  | refused (pc : s.pc (q, k) = .refused) :
    TaskStep W s q k (setPc (setGen s (s.gen.setStatus (q, k) .requestFailed)) q k .removing)
  | removed (pc : s.pc (q, k) = .removing) :
    TaskStep W s q k (setPc (setGen s (s.gen.removeStatus (W.id q) (q, k))) q k .finished)
  | verdict (pc : s.pc (q, k) = .checking) (all : s.gen.allStatusesNotFound (W.id q) = true) :
    TaskStep W s q k (setPc s q k (.answering .notFound))
  | undecided (pc : s.pc (q, k) = .checking) (all : s.gen.allStatusesNotFound (W.id q) = false) :
    TaskStep W s q k (setPc s q k .finished)
  | answered {status : ResponseStatusCode} (pc : s.pc (q, k) = .answering status)
      (free : s.calling (W.peer q) = none) :
    TaskStep W s q k (setPc (sendResponse s (W.peer q) (W.id q) status (W.request q).extensions) q k
      .forgetting)
  | unanswered {status : ResponseStatusCode} (pc : s.pc (q, k) = .answering status)
      (stopped : s.started (W.inst q k) = false) : TaskStep W s q k (setPc s q k .forgetting)
  | forgotten (pc : s.pc (q, k) = .forgetting) :
    TaskStep W s q k (setPc (setGen s (s.gen.removeRequest (W.id q))) q k .finished)

omit [DecidableEq Q] in
theorem locked_some {W : Workload Q} {s s' next : State Q} {q : Q}
    (hs : locked W s q next = some s') : s.calling (W.peer q) = none ∧ next = s' := by
  unfold locked at hs
  by_cases hfree : s.calling (W.peer q) = none
  · rw [if_pos hfree] at hs
    exact ⟨hfree, Option.some.inj hs⟩
  · rw [if_neg hfree] at hs
    exact absurd hs (Option.some_ne_none s').symm

theorem taskStep_of_advance {W : Workload Q} {s s' : State Q} {q : Q} {k : ℕ}
    (hs : advance W s q k = some s') : TaskStep W s q k s' := by
  unfold advance at hs
  split at hs
  · exact absurd hs (Option.some_ne_none s').symm
  case h_2 hpc =>
    split at hs
    case isTrue hdead => exact Option.some.inj hs ▸ .gone hpc (by simpa using hdead)
    split at hs
    case isTrue hstop => exact Option.some.inj hs ▸ .late hpc (by simpa using hstop)
    obtain ⟨hfree, rfl⟩ := locked_some hs
    exact .begins hpc hfree
  case h_3 b rest hpc =>
    split at hs
    · exact Option.some.inj hs ▸ .skipped hpc
    split at hs
    · obtain ⟨hfree, rfl⟩ := locked_some hs
      exact .passed hpc hfree
    case isFalse hsink =>
      obtain ⟨hfree, rfl⟩ := locked_some hs
      exact .refuses hpc hfree (by simpa using hsink)
  case h_4 hpc =>
    split at hs
    case h_1 hres => exact Option.some.inj hs ▸ .failed hpc hres
    case h_2 hres => exact Option.some.inj hs ▸ .missing hpc (by simp [Lookup.missing, hres])
    case h_3 hres => exact Option.some.inj hs ▸ .found hpc (by simp [Lookup.found, hres])
  case h_5 hpc => exact Option.some.inj hs ▸ .refused hpc
  case h_6 hpc => exact Option.some.inj hs ▸ .removed hpc
  case h_7 hpc =>
    split at hs
    case isTrue hall => exact Option.some.inj hs ▸ .verdict hpc hall
    case isFalse hall => exact Option.some.inj hs ▸ .undecided hpc (by simpa using hall)
  case h_8 status hpc =>
    split at hs
    · obtain ⟨hfree, rfl⟩ := locked_some hs
      exact .answered hpc hfree
    case isFalse hstop =>
      obtain ⟨-, rfl⟩ := locked_some hs
      exact .unanswered hpc (by simpa using hstop)
  case h_9 hpc => exact Option.some.inj hs ▸ .forgotten hpc
  · exact absurd hs (Option.some_ne_none s').symm

abbrev run (W : Workload Q) (s : State Q) (as : List (Action Q)) : Option (State Q) :=
  Runs.run (step W) s as

end IpfsLite.Graphsync.Responder
