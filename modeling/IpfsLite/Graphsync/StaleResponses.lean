import IpfsLite.Graphsync.Tracking

/-! # Responses and the request they are for

The entry of a root is that of its latest request, and a response goes to the entry of its root
whichever request that is. Beside the instance goes what should be reported: the state of the latest
request for each root, changed by the responses to this request only. -/
namespace IpfsLite.Graphsync.GraphsyncImpl
set_option autoImplicit false

open Node (trackResponse completeRequest isStalled)

/-- For each root the latest request that is remembered, with its state. -/
abbrev Ideal := CID → Option (RequestId × RequestState)

namespace Ideal

def set (d : Ideal) (rootCid : CID) (id : RequestId) (state : RequestState) : Ideal :=
  Function.update d rootCid (some (id, state))

def modify (d : Ideal) (rootCid : CID) (f : RequestId → RequestState → RequestState) : Ideal :=
  Function.update d rootCid ((d rootCid).map fun r => (r.1, f r.1 r.2))

def unfinished (d : Ideal) (rootCid : CID) : Bool := (d rootCid).any fun r => r.2 = .inProgress

end Ideal

structure Audit where
  impl : GraphsyncImpl
  /-- history: the id of the last request made for each root -/
  latest : CID → Option RequestId
  ideal : Ideal

namespace Audit

def initial : Audit := ⟨.initial, fun _ => none, fun _ => none⟩

/-- The request that a step enters: one that is made while the latest for its root is finished. -/
def entered (a : Audit) : Step → Option (CID × RequestId)
  | .makeRequest _ generator rootCid selector extensions =>
    if a.ideal.unfinished rootCid then none
    else (a.impl.localRequests.newRequest generator rootCid selector extensions).2.map fun r =>
      (rootCid, r.requestId)
  | _ => none

/-- A response with an error fails the request it is for. -/
def answer (id : RequestId) (status : ResponseStatusCode) (latest : RequestId) (state : RequestState) :
    RequestState :=
  if latest = id && isTerminal status && status ≠ .fullContent then .failed else state

def nextIdeal (a : Audit) (e : Step) : Ideal :=
  match e with
  | .makeRequest _ _ _ _ _ => (a.entered e).elim a.ideal fun r => a.ideal.set r.1 r.2 .inProgress
  | .onResponse _ id status =>
    (a.impl.localRequests.getRequestRootCid id).elim a.ideal fun rootCid =>
      a.ideal.modify rootCid (answer id status)
  | .blockProcessed rootCid =>
    a.ideal.modify rootCid fun _ state => if state = .inProgress then .completed else state
  | .cleanupStalled _ rootCid => a.ideal.modify rootCid fun _ _ => .failed
  | .cleanupRemove rootCid => Function.update a.ideal rootCid none
  | .cleared => fun _ => none
  | _ => a.ideal

def nextLatest (a : Audit) (e : Step) : CID → Option RequestId :=
  (a.entered e).elim a.latest fun r => Function.update a.latest r.1 (some r.2)

def step (a : Audit) (e : Step) : Option Audit :=
  (GraphsyncImpl.step a.impl e).map fun g => ⟨g, a.nextLatest e, a.nextIdeal e⟩

/-- No response for a request comes once a newer request for its root has been made, unless the root
is not tracked any more. -/
def NoLateResponse (a : Audit) : Step → Prop
  | .onResponse _ id _ =>
    (a.impl.localRequests.getRequestRootCid id).all fun rootCid =>
      a.impl.trackedRequests.find? rootCid = none ∨ a.latest rootCid = some id
  | _ => True

instance (a : Audit) : (e : Step) → Decidable (a.NoLateResponse e)
  | .onResponse _ _ _ => inferInstanceAs (Decidable (_ = true))
  | .start | .stop | .cleared | .reject | .makeRequest _ _ _ _ _ | .onBlock _ _ | .blockProcessed _
  | .unsubscribe _ | .cleanupStalled _ _ | .cleanupRemove _ | .cancelRejected | .resetRejectedIds =>
    .isTrue trivial

/-- A response changes no entry but that of its own request. -/
def OwnEntryOnly (a : Audit) : Step → Prop
  | .onResponse now id status => ∀ rootCid info, a.impl.trackedRequests.find? rootCid = some info →
    (a.impl.onResponse now id status).trackedRequests.find? rootCid ≠ some info → info.requestId = id
  | _ => True

/-- What `getRequestInfo` tells of the request and its state. -/
def reported (g : GraphsyncImpl) (rootCid : CID) : Option (RequestId × RequestState) :=
  (g.trackedRequests.find? rootCid).map fun info => (info.requestId, info.state)

structure Agrees (a : Audit) : Prop where
  latest {rootCid : CID} {info : RequestTrackingInfo} :
    a.impl.trackedRequests.find? rootCid = some info → a.latest rootCid = some info.requestId
  reported (rootCid : CID) : reported a.impl rootCid = a.ideal rootCid

theorem Agrees.inProgress {a : Audit} (h : a.Agrees) (rootCid : CID) :
    a.impl.isInProgress rootCid = a.ideal.unfinished rootCid := by
  rw [Ideal.unfinished, ← h.reported, Audit.reported, isInProgress]
  cases a.impl.trackedRequests.find? rootCid <;> rfl

/-! ## One step -/

theorem onResponse_tracked (g : GraphsyncImpl) (now : ℕ) (id : RequestId) (status : ResponseStatusCode) :
    (g.onResponse now id status).trackedRequests =
      (g.localRequests.getRequestRootCid id).elim g.trackedRequests fun rootCid =>
        g.trackedRequests.modify rootCid (trackResponse now status) := by
  unfold GraphsyncImpl.onResponse
  cases g.localRequests.getRequestRootCid id <;> rfl

/-- A change to one entry that keeps its request, on both sides. -/
theorem Agrees.modify {a : Audit} (h : a.Agrees) {rootCid : CID} {g : GraphsyncImpl}
    {f : RequestTrackingInfo → RequestTrackingInfo} {d : RequestId → RequestState → RequestState}
    (hg : g.trackedRequests = a.impl.trackedRequests.modify rootCid f)
    (hid : ∀ info, (f info).requestId = info.requestId)
    (hstate : ∀ info, a.impl.trackedRequests.find? rootCid = some info →
      (f info).state = d info.requestId info.state) :
    Agrees ⟨g, a.latest, a.ideal.modify rootCid d⟩ := by
  refine ⟨fun {c info} hfind => ?_, fun c => ?_⟩
  · simp only [hg, AssocMap.find?_modify] at hfind
    split at hfind
    · obtain ⟨old, hold, rfl⟩ := Option.map_eq_some_iff.mp hfind
      rw [hid]
      exact h.latest hold
    · exact h.latest hfind
  · have hc := h.reported c
    simp only [Audit.reported, hg, AssocMap.find?_modify, Ideal.modify] at hc ⊢
    by_cases hroot : c = rootCid
    · subst hroot
      rw [if_pos rfl, Function.update_self, ← hc]
      cases hfind : a.impl.trackedRequests.find? c with
      | none => rfl
      | some info => simp [hid, hstate info hfind]
    · rw [if_neg hroot, Function.update_of_ne hroot, hc]

theorem Agrees.same {a : Audit} (h : a.Agrees) {g : GraphsyncImpl}
    (hg : g.trackedRequests = a.impl.trackedRequests) : Agrees ⟨g, a.latest, a.ideal⟩ := by
  refine ⟨fun {c info} hfind => ?_, fun c => ?_⟩
  · rw [hg] at hfind
    exact h.latest hfind
  · rw [Audit.reported, hg]
    exact h.reported c

theorem Agrees.erase {a : Audit} (h : a.Agrees) (rootCid : CID) :
    Agrees ⟨a.impl.untrack rootCid, a.latest, Function.update a.ideal rootCid none⟩ := by
  refine ⟨fun {c info} hfind => ?_, fun c => ?_⟩
  · simp only [untrack, AssocMap.find?_erase] at hfind
    split at hfind
    · cases hfind
    · exact h.latest hfind
  · have hc := h.reported c
    simp only [Audit.reported, untrack, AssocMap.find?_erase] at hc ⊢
    by_cases hroot : c = rootCid
    · rw [hroot, if_pos rfl, Function.update_self]
      rfl
    · rw [if_neg hroot, Function.update_of_ne hroot, hc]

theorem Agrees.insert {a : Audit} (h : a.Agrees) {rootCid : CID} {id : RequestId} {now : ℕ}
    {g : GraphsyncImpl}
    (hg : g.trackedRequests = a.impl.trackedRequests.insert rootCid ⟨.inProgress, id, now, now⟩) :
    Agrees ⟨g, Function.update a.latest rootCid (some id), a.ideal.set rootCid id .inProgress⟩ := by
  refine ⟨fun {c info} hfind => ?_, fun c => ?_⟩
  · simp only [hg, AssocMap.find?_insert] at hfind
    show Function.update a.latest rootCid (some id) c = _
    by_cases hroot : c = rootCid
    · rw [if_pos hroot, Option.some_inj] at hfind
      rw [hroot, Function.update_self, ← hfind]
    · rw [if_neg hroot] at hfind
      rw [Function.update_of_ne hroot]
      exact h.latest hfind
  · have hc := h.reported c
    simp only [Audit.reported, hg, AssocMap.find?_insert, Ideal.set] at hc ⊢
    by_cases hroot : c = rootCid
    · rw [hroot, if_pos rfl, Function.update_self]
      rfl
    · rw [if_neg hroot, Function.update_of_ne hroot, hc]

theorem Agrees.makeRequest {a : Audit} (h : a.Agrees) (now : ℕ) (generator : IdGenerator) (rootCid : CID)
    (selector : Bytes) (extensions : List Extension) :
    Agrees ⟨a.impl.makeRequest now generator rootCid selector extensions,
      a.nextLatest (.makeRequest now generator rootCid selector extensions),
      a.nextIdeal (.makeRequest now generator rootCid selector extensions)⟩ := by
  have hprogress := h.inProgress rootCid
  unfold GraphsyncImpl.makeRequest nextLatest nextIdeal entered
  by_cases hunfinished : a.ideal.unfinished rootCid = true
  · rw [if_pos (hprogress.trans hunfinished)]
    simp only [if_pos hunfinished]
    exact h.same rfl
  · rw [← hprogress] at hunfinished
    rw [if_neg hunfinished]
    rw [hprogress] at hunfinished
    simp only [if_neg hunfinished]
    cases (a.impl.localRequests.newRequest generator rootCid selector extensions).2 with
    | none => exact h.same rfl
    | some request => exact h.insert rfl

theorem Agrees.onResponse {a : Audit} (h : a.Agrees) {now : ℕ} {id : RequestId}
    {status : ResponseStatusCode} (hok : a.NoLateResponse (.onResponse now id status)) :
    Agrees ⟨a.impl.onResponse now id status, a.latest, a.nextIdeal (.onResponse now id status)⟩ := by
  have htracked := onResponse_tracked a.impl now id status
  simp only [NoLateResponse] at hok
  simp only [nextIdeal]
  cases hroot : a.impl.localRequests.getRequestRootCid id with
  | none =>
    rw [hroot] at htracked
    exact h.same htracked
  | some rootCid =>
    rw [hroot] at htracked hok
    refine h.modify htracked (fun _ => rfl) fun info hfind => ?_
    have hlatest := of_decide_eq_true hok
    rw [hfind, h.latest hfind] at hlatest
    have hid : info.requestId = id := Option.some_inj.mp (hlatest.resolve_left (Option.some_ne_none _))
    simp [trackResponse, answer, hid]

/-- One case for each step. -/
theorem Agrees.step {a b : Audit} {e : Step} (h : a.Agrees) (hok : a.NoLateResponse e)
    (hs : a.step e = some b) : b.Agrees := by
  obtain ⟨g, hg, rfl⟩ := Option.map_eq_some_iff.mp hs
  cases e with
  | makeRequest now generator rootCid selector extensions =>
    simp only [GraphsyncImpl.step] at hg
    split at hg
    · cases hg
      exact h.makeRequest now generator rootCid selector extensions
    · cases hg
  | onResponse now id status =>
    simp only [GraphsyncImpl.step] at hg
    split at hg
    · cases hg
      exact h.onResponse hok
    · cases hg
  | onBlock now rootCid =>
    simp only [GraphsyncImpl.step] at hg
    split at hg
    · cases hg
      have hmodify : Agrees ⟨a.impl.modifyTracked rootCid fun info => { info with lastActivityTime := now },
          a.latest, a.ideal.modify rootCid fun _ state => state⟩ :=
        h.modify (f := fun info => { info with lastActivityTime := now }) rfl (fun _ => rfl) fun _ _ => rfl
      have hsame : a.ideal.modify rootCid (fun _ state => state) = a.ideal := by
        have hid : (a.ideal rootCid).map (fun r => (r.1, r.2)) = a.ideal rootCid := by
          cases a.ideal rootCid <;> rfl
        rw [Ideal.modify, hid, Function.update_eq_self]
      rwa [hsame] at hmodify
    · cases hg
  | blockProcessed rootCid =>
    cases hg
    show Agrees ⟨a.impl.modifyTracked rootCid completeRequest, a.latest,
      a.ideal.modify rootCid fun _ state => if state = .inProgress then .completed else state⟩
    refine h.modify (f := completeRequest) rfl (fun info => ?_) fun info _ => ?_
    · unfold completeRequest
      split <;> rfl
    · unfold completeRequest
      split <;> rfl
  | cleanupStalled now rootCid =>
    simp only [GraphsyncImpl.step] at hg
    split at hg
    · cases hg
    · split at hg
      · cases hg
        exact h.modify (f := fun info => { info with state := .failed }) (d := fun _ _ => .failed) rfl
          (fun _ => rfl) fun _ _ => rfl
      · cases hg
  | cleanupRemove rootCid =>
    cases hg
    exact h.erase rootCid
  | cleared =>
    cases hg
    exact ⟨fun hfind => (by cases hfind), fun _ => rfl⟩
  | resetRejectedIds =>
    simp only [GraphsyncImpl.step] at hg
    split at hg
    · cases hg
      exact h.same rfl
    · cases hg
  | start | stop | reject | cancelRejected | unsubscribe ticket =>
    cases hg
    exact h.same rfl

theorem Agrees.ownEntryOnly {a : Audit} (h : a.Agrees) {e : Step} (hok : a.NoLateResponse e) :
    a.OwnEntryOnly e := by
  cases e with
  | onResponse now id status =>
    intro rootCid info hfind hchanged
    have htracked := onResponse_tracked a.impl now id status
    simp only [NoLateResponse] at hok
    cases hroot : a.impl.localRequests.getRequestRootCid id with
    | none =>
      rw [hroot] at htracked
      rw [htracked] at hchanged
      exact absurd hfind hchanged
    | some c =>
      rw [hroot] at htracked hok
      have hfound := hfind
      rw [htracked, Option.elim_some, AssocMap.find?_modify] at hchanged
      by_cases hc : rootCid = c
      · have hlatest := of_decide_eq_true hok
        rw [← hc, hfind, h.latest hfind] at hlatest
        exact Option.some_inj.mp (hlatest.resolve_left (Option.some_ne_none _))
      · rw [if_neg hc] at hchanged
        exact absurd hfind hchanged
  | _ => trivial

/-! ## Runs -/

/-- **The entry of a root is the latest request's own** in every run without late responses: what is
reported is its state, a further request is turned down exactly while it is unfinished, and no
response changes the entry of another request. -/
theorem latest_request_reported {es : List Step} {a : Audit} (hr : Runs.run step initial es = some a)
    (hok : Runs.EveryStep step NoLateResponse initial es) :
    (∀ rootCid, reported a.impl rootCid = a.ideal rootCid ∧
      a.impl.isInProgress rootCid = a.ideal.unfinished rootCid) ∧
    Runs.EveryStep step OwnEntryOnly initial es := by
  have hinitial : initial.Agrees := ⟨fun hfind => (by cases hfind), fun _ => rfl⟩
  have hstep (a b : Audit) (e : Step) (h : a.Agrees) (hok : a.NoLateResponse e) (hs : a.step e = some b) :
      b.Agrees := h.step hok hs
  have hagrees : a.Agrees :=
    Runs.run_invariant Agrees (fun a e b => hstep a b e) hinitial hok hr
  refine ⟨fun rootCid => ⟨hagrees.reported rootCid, hagrees.inProgress rootCid⟩, ?_⟩
  exact Runs.everyStep_of_invariant Agrees (fun a e b => hstep a b e)
    (fun _ _ h hok => h.ownEntryOnly hok) hinitial hok

/-- A request that is answered, and asked again afterwards. -/
def repeatedSteps : List Step :=
  [.start, .makeRequest 0 .initial (Node.inlineCid 1) [] [], .onResponse 5 1 .notFound,
    .makeRequest 7 ⟨1, fun _ => [], fun _ => .awaitingStatus⟩ (Node.inlineCid 1) [] []]

theorem repeated_request_reported :
    (∀ rootCid, reported (Runs.last step initial repeatedSteps).impl rootCid =
        (Runs.last step initial repeatedSteps).ideal rootCid ∧
      (Runs.last step initial repeatedSteps).impl.isInProgress rootCid =
        (Runs.last step initial repeatedSteps).ideal.unfinished rootCid) ∧
    Runs.EveryStep step OwnEntryOnly initial repeatedSteps :=
  latest_request_reported (Runs.run_last (by decide +kernel)) (by decide +kernel)

end Audit
end IpfsLite.Graphsync.GraphsyncImpl

namespace IpfsLite.Graphsync.Node

/-- The CID of the one byte 7 under sha2-256. -/
def sevenCid : CID :=
  ⟨.v1, Multicodec.dagPb, ⟨HashType.sha256,
    [202, 53, 135, 88, 246, 210, 126, 108, 244, 82, 114, 147, 121, 119, 167, 72, 253, 136, 57, 29, 182,
      121, 206, 218, 125, 199, 191, 31, 0, 94, 232, 121], by decide⟩⟩

/-- The root is requested, its block comes, it is requested again, and then the first request fails. -/
def lateResponseRun : List (Reentrant.Move Op) :=
  [.invoke (.start 0), .invoke (.makeRequest 0 9 none sevenCid [] []),
    .invoke (.event 0 (.streamConnected (some 5))), .invoke (.event 0 (.windowAdjusted 5 true)),
    .invoke (.event 0 (.readerEvent 5 (some ⟨false, [], [], [⟨sevenCid, [7]⟩]⟩))), .ret,
    .invoke (.makeRequest 0 9 none sevenCid [] [])]

def lateResponse : Reentrant.Move Op := .invoke (.event 0 (.readerEvent 5 (some (answer 1 .notFound))))

/-- The response for request 1 fails the entry of request 2, which is active and not answered. -/
theorem late_response_fails_newer :
    (Runs.run step (Reentrant.Config.start initial) (lateResponseRun ++ [lateResponse])).isSome = true ∧
      (after lateResponseRun).frames.isEmpty = true ∧
      ((after lateResponseRun).state.instances 0).trackedRequests.find? sevenCid =
        some ⟨.inProgress, 2, 0, 0⟩ ∧
      ((after (lateResponseRun ++ [lateResponse])).state.instances 0).trackedRequests.find? sevenCid =
        some ⟨.failed, 2, 0, 0⟩ ∧
      ((after (lateResponseRun ++ [lateResponse])).state.instances 0).localRequests.activeRequests.keys = [2] := by
  decide +kernel

end IpfsLite.Graphsync.Node
