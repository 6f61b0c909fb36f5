import IpfsLite.Graphsync.InstanceRuns
import IpfsLite.Graphsync.NodeLedger

/-! # Requests that fail to start

A `makeRequest` that gives no active request: what it leaves behind in the tables and in the request
builder, which later requests share. -/
namespace IpfsLite.Graphsync
set_option autoImplicit false

open Reentrant

/-! ## Rejected ids are negative -/

namespace GraphsyncImpl

theorem newRequest_rejectedIds {l : LocalRequests} (h : l.currentRejectedRequestId ≤ 0) (g : IdGenerator)
    (rootCid : CID) (selector : Bytes) (extensions : List Extension) :
    (l.newRequest g rootCid selector extensions).1.1.currentRejectedRequestId ≤ 0 := by
  rcases LocalRequests.newRequest_cases l g rootCid selector extensions rfl rfl with
    ⟨-, hl, -⟩ | ⟨-, -, -, hid, -⟩ | ⟨_, _, -, -, -, -, -, hid, -⟩
  · rw [hl]
    exact h
  · omega
  · omega

theorem onResponse_rejectedIds (l : LocalRequests) (id : RequestId) (status : ResponseStatusCode) :
    (l.onResponse id status).1.currentRejectedRequestId = l.currentRejectedRequestId := by
  unfold LocalRequests.onResponse
  split
  · rfl
  · split <;> rfl

theorem rejectedIds_step {g h : GraphsyncImpl} {e : Step} (hs : step g e = some h)
    (hg : g.localRequests.currentRejectedRequestId ≤ 0) :
    h.localRequests.currentRejectedRequestId ≤ 0 := by
  have hreject : g.localRequests.newRejectedRequest.currentRejectedRequestId ≤ 0 := by
    show g.localRequests.currentRejectedRequestId - 1 ≤ 0
    omega
  cases e with
  | makeRequest now generator rootCid selector extensions =>
    simp only [step] at hs
    split at hs
    · cases hs
      unfold makeRequest
      split
      · exact hreject
      · dsimp only
        have hnew := newRequest_rejectedIds hg generator rootCid selector extensions
        split <;> exact hnew
    · cases hs
  | onResponse now id status =>
    simp only [step] at hs
    split at hs
    · cases hs
      unfold onResponse
      split <;> exact (onResponse_rejectedIds _ id status).trans_le hg
    · cases hs
  | unsubscribe ticket =>
    cases hs
    show (g.localRequests.unsubscribe ticket).1.currentRejectedRequestId ≤ 0
    unfold LocalRequests.unsubscribe
    split
    · exact hg
    · split <;> exact hg
  | cleanupStalled now rootCid =>
    simp only [step] at hs
    split at hs
    · cases hs
    · split at hs
      · cases hs
        exact (onResponse_rejectedIds _ _ .timeout).trans_le hg
      · cases hs
  | reject =>
    cases hs
    exact hreject
  | resetRejectedIds =>
    simp only [step] at hs
    split at hs
    · cases hs
      exact le_refl 0
    · cases hs
  | onBlock now rootCid =>
    simp only [step] at hs
    split at hs
    · cases hs
      exact hg
    · cases hs
  | start | stop | cleared | blockProcessed rootCid | cleanupRemove rootCid | cancelRejected =>
    cases hs
    exact hg

theorem rejectedIds_of_run {es : List Step} {g : GraphsyncImpl} (hr : Runs.run step initial es = some g) :
    g.localRequests.currentRejectedRequestId ≤ 0 :=
  Runs.run_invariant (fun g => g.localRequests.currentRejectedRequestId ≤ 0)
    (fun _ _ _ hg _ hs => rejectedIds_step hs hg) (le_refl 0) (Runs.everyStep_true _ es) hr

end GraphsyncImpl

/-! ## What a failed request leaves -/

namespace Node
open GraphsyncImpl (rejectedIds_of_run)

/-- The tables and the message in the builder, which the requests of an instance share. -/
structure SameRequests (g h : GraphsyncImpl) : Prop where
  tracked : h.trackedRequests = g.trackedRequests
  active : h.localRequests.activeRequests = g.localRequests.activeRequests
  requestToCid : h.localRequests.requestToCid = g.localRequests.requestToCid
  message : h.localRequests.requestBuilder.pbMsg = g.localRequests.requestBuilder.pbMsg

/-- The request is turned down before an id is made for it. -/
def RejectedEarly (s : Node) (i : InstanceId) (peer : PeerId) (rootCid : CID) : Prop :=
  (s.instances i).started = false ∨ (s.canSendRequest peer).2 = false ∨ s.isInProgress i rootCid = true

/-- The request becomes active under a new positive id. -/
def AddsRequest (s : Node) (i : InstanceId) (peer : PeerId) (rootCid : CID) (selector : Bytes)
    (extensions : List Extension) : Prop :=
  (s.instances i).started = true ∧ (s.canSendRequest peer).2 = true ∧
    ∃ id, 0 < id ∧ (s.instances i).localRequests.activeRequests.contains id = false ∧
      ((s.instances i).makeRequest s.now s.generator rootCid selector
        extensions).localRequests.activeRequests.contains id = true

theorem SameRequests.reject (g : GraphsyncImpl) : SameRequests g g.reject := ⟨rfl, rfl, rfl, rfl⟩

/-- A root that was not in progress is now. -/
theorem not_same_of_tracked {g h : GraphsyncImpl} {rootCid : CID} {info : RequestTrackingInfo}
    (hprogress : g.isInProgress rootCid = false) (hstate : info.state = .inProgress)
    (htracked : h.trackedRequests = g.trackedRequests.insert rootCid info) : ¬SameRequests g h := by
  intro hsame
  have hfind : g.trackedRequests.find? rootCid = some info := by
    rw [← hsame.tracked, htracked, AssocMap.find?_insert, if_pos rfl]
  rw [GraphsyncImpl.isInProgress, hfind, Option.any_some, hstate] at hprogress
  exact absurd hprogress (by decide)

/-- The request fails past the check: an exception, or what is tracked has no active request. -/
theorem makeRequest_unsent {s : Node} {i : InstanceId} {rootCid : CID} {selector : Bytes}
    {extensions : List Extension} (hprogress : (s.instances i).isInProgress rootCid = false)
    (hids : (s.instances i).localRequests.currentRejectedRequestId ≤ 0)
    (hlost : ¬∃ id, 0 < id ∧ (s.instances i).localRequests.activeRequests.contains id = false ∧
      ((s.instances i).makeRequest s.now s.generator rootCid selector
        extensions).localRequests.activeRequests.contains id = true) :
    ((s.newRequest i rootCid selector extensions).2 = none ∧
      ¬SameRequests (s.instances i) ((s.newRequest i rootCid selector extensions).1.instances i)) ∨
    ∃ request, (s.newRequest i rootCid selector extensions).2 = some request ∧ ¬0 < request.requestId ∧
      ¬SameRequests (s.instances i)
        (((s.newRequest i rootCid selector extensions).1.trackRequest i rootCid request.requestId).instances i) := by
  let l := (s.instances i).localRequests
  let made := l.newRequest s.generator rootCid selector extensions
  have hown : (s.newRequest i rootCid selector extensions).1.instances i =
      { s.instances i with localRequests := made.1.1 } := instances_setInstance _ _ _
  have htracked (id : RequestId) :
      (((s.newRequest i rootCid selector extensions).1.trackRequest i rootCid id).instances i).trackedRequests =
        (s.instances i).trackedRequests.insert rootCid ⟨.inProgress, id, s.now, s.now⟩ := by
    rw [trackRequest, setTracked, instances_setInstance, hown]
    rfl
  have hadds : ((s.instances i).makeRequest s.now s.generator rootCid selector
      extensions).localRequests.activeRequests = made.1.1.activeRequests := by
    unfold GraphsyncImpl.makeRequest
    rw [if_neg (by rw [hprogress]; decide)]
    dsimp only
    split <;> rfl
  rcases LocalRequests.newRequest_cases l s.generator rootCid selector extensions rfl rfl with
    ⟨hnone, hl, -⟩ | ⟨hsome, -⟩ | ⟨id, body, hsome, -, hnew, hactive, -⟩
  · refine .inl ⟨hnone, fun hsame => ?_⟩
    have hlen := LocalRequests.withRequest_length l s.generator rootCid selector extensions
    have hmessage := hsame.message
    rw [hown] at hmessage
    rw [show made.1.1 = _ from hl] at hmessage
    rw [show (l.withRequest s.generator rootCid selector extensions).1.pbMsg = _ from hmessage] at hlen
    exact absurd hlen (Nat.succ_ne_self _).symm
  · refine .inr ⟨_, hsome, ?_, not_same_of_tracked hprogress rfl (htracked _)⟩
    show ¬0 < (s.instances i).localRequests.currentRejectedRequestId - 1
    omega
  · refine .inr ⟨_, hsome, fun hpos => hlost ⟨id, hpos, hnew, ?_⟩, not_same_of_tracked hprogress rfl (htracked _)⟩
    rw [hadds, show made.1.1.activeRequests = _ from hactive, OrdMap.contains_insert]
    simp

theorem withLock_apply (i : InstanceId) {α : Type} (p : Action α) (s : Node) :
    withLock i p s = (p (lockedNode i s)).bind fun a t => .done a (t.setLocked i false) := rfl

/-- **What a failed request leaves**: everything is as before if and only if it was turned down
before an id was made for it. -/
theorem failed_request_iff {ms : List (Move Op)} {c : Config Node Call}
    (hr : Runs.run step (Config.start initial) ms = some c) (i : InstanceId) (peer : PeerId)
    (address : Option (List Multiaddress)) (rootCid : CID) (selector : Bytes)
    (extensions : List Extension)
    (hfailed : ¬c.state.AddsRequest i peer rootCid selector extensions) :
    ∃ t, makeRequest i peer address rootCid selector extensions c.state = .done () t ∧
      (SameRequests (c.state.instances i) (t.instances i) ↔ c.state.RejectedEarly i peer rootCid) := by
  obtain ⟨es, hes⟩ := instance_of_run hr i
  have hids := rejectedIds_of_run hes
  generalize c.state = s at *
  have hreject {t : Node} (ht : t.instances i = s.instances i) :
      SameRequests (s.instances i) ((t.newRejectedRequest i).instances i) := by
    rw [newRejectedRequest, setLocal, instances_setInstance, ht]
    exact SameRequests.reject _
  by_cases hstarted : (s.instances i).started = false
  · refine ⟨s.newRejectedRequest i, ?_, iff_of_true (hreject rfl) (.inl hstarted)⟩
    rw [makeRequest, Prog.bind_apply, Prog.get_apply, Res.bind_done, if_pos hstarted]
    rfl
  rw [makeRequest, Prog.bind_apply, Prog.get_apply, Res.bind_done, if_neg hstarted]
  have hframe := canSendRequest_frame s peer
  rw [Prog.bind_apply]
  show ∃ t, (ite ((s.canSendRequest peer).2 = false) _ _ : Action Unit) (s.canSendRequest peer).1 = _ ∧ _
  by_cases hsend : (s.canSendRequest peer).2 = false
  · rw [if_pos hsend]
    exact ⟨_, rfl, iff_of_true (hreject (congrFun (canSendRequest_instances s peer) i)) (.inr (.inl hsend))⟩
  rw [if_neg hsend, withLock_apply]
  -- from here on the node differs from `s` in the network and the flags only
  obtain ⟨u, hu⟩ : ∃ u, u = lockedNode i (s.canSendRequest peer).1 := ⟨_, rfl⟩
  have hinstances : u.instances = s.instances := by
    obtain ⟨_, _, hframe⟩ := hframe
    rw [hu, hframe]
    rfl
  have hnow : u.now = s.now := by
    obtain ⟨_, _, hframe⟩ := hframe
    rw [hu, hframe]
    rfl
  have hgenerator : u.generator = s.generator := by
    obtain ⟨_, _, hframe⟩ := hframe
    rw [hu, hframe]
    rfl
  rw [← hu, Prog.bind_apply, Prog.get_apply, Res.bind_done]
  by_cases hprogress : u.isInProgress i rootCid = true
  · rw [if_pos hprogress]
    have hearly : s.isInProgress i rootCid = true := by
      unfold isInProgress at hprogress ⊢
      rwa [hinstances] at hprogress
    exact ⟨_, rfl, iff_of_true (hreject (congrFun hinstances i)) (.inr (.inr hearly))⟩
  rw [if_neg hprogress]
  have hlate : ¬s.RejectedEarly i peer rootCid := by
    rintro (h | h | h)
    · exact hstarted h
    · exact hsend h
    · unfold isInProgress at hprogress h
      rw [hinstances] at hprogress
      exact hprogress h
  have hlost : ¬∃ id, 0 < id ∧ (u.instances i).localRequests.activeRequests.contains id = false ∧
      ((u.instances i).makeRequest u.now u.generator rootCid selector
        extensions).localRequests.activeRequests.contains id = true := by
    rw [hinstances, hnow, hgenerator]
    exact fun h => hfailed ⟨Bool.eq_true_of_not_eq_false hstarted, Bool.eq_true_of_not_eq_false hsend, h⟩
  rw [← hinstances]
  rw [← hinstances] at hids
  rcases makeRequest_unsent (Bool.eq_false_of_not_eq_true hprogress) hids hlost with
    ⟨hnone, hchanged⟩ | ⟨request, hsome, hunsent, hchanged⟩
  · refine ⟨(u.newRequest i rootCid selector extensions).1.setLocked i false, ?_, iff_of_false hchanged hlate⟩
    simp only [Prog.bind_apply, Prog.update, hnone]
    rfl
  · refine ⟨((u.newRequest i rootCid selector extensions).1.trackRequest i rootCid
      request.requestId).setLocked i false, ?_, iff_of_false hchanged hlate⟩
    simp only [Prog.bind_apply, Prog.update, hsome]
    show Res.bind ((Prog.when (0 < request.requestId) _ : Action Unit) _) _ = _
    rw [Prog.when, if_neg hunsent]
    rfl

/-- Instance 0 is started. -/
def startedRun : List (Move Op) := [.invoke (.start 0)]

theorem startedRun_ok : Runs.run step (Config.start initial) startedRun = some (after startedRun) :=
  Runs.run_last (by decide +kernel)

/-- The default CID has no byte form, so no request for it is added. -/
theorem empty_not_added : ¬(after startedRun).state.AddsRequest 0 9 CID.empty [] [] := by
  rintro ⟨-, -, id, -, -, hid⟩
  have hkeys : (((after startedRun).state.instances 0).makeRequest (after startedRun).state.now
      (after startedRun).state.generator CID.empty [] []).localRequests.activeRequests.keys = [] := by
    decide +kernel
  have hmem := (OrdMap.mem_keys_iff _ id).mpr hid
  rw [hkeys] at hmem
  exact absurd hmem List.not_mem_nil

theorem failed_request_empty : ∃ t, makeRequest 0 9 none CID.empty [] [] (after startedRun).state = .done () t ∧
    (SameRequests ((after startedRun).state.instances 0) (t.instances 0) ↔
      (after startedRun).state.RejectedEarly 0 9 CID.empty) :=
  failed_request_iff startedRun_ok 0 9 none CID.empty [] [] empty_not_added

def throwingRun : List (Move Op) := startedRun ++ [.invoke (.makeRequest 0 9 none CID.empty [] [])]

/-- The requests in the message that a request for the root would be sent in. -/
def sentRequests (s : Node) (i : InstanceId) (rootCid : CID) : Option (List Pb.Request) := do
  let request ← (s.newRequest i rootCid [] []).2
  let (_, body) ← Varint.decode request.body
  let msg ← Pb.Message.parse body
  return msg.requests

/-- The exception adds no request and leaves its entry in the builder: the message of the next
request has two. -/
theorem throwing_request_stays :
    (Runs.run step (Config.start initial) throwingRun).isSome = true ∧
      (after throwingRun).frames.isEmpty = true ∧
      ((after throwingRun).state.instances 0).localRequests.activeRequests.keys = [] ∧
      ((after startedRun).state.instances 0).localRequests.requestBuilder.pbMsg.requests = [] ∧
      ((after throwingRun).state.instances 0).localRequests.requestBuilder.pbMsg.requests =
        [{ Pb.Request.default with id := 1 }] ∧
      (sentRequests (after startedRun).state 0 (inlineCid 1)).map List.length = some 1 ∧
      (sentRequests (after throwingRun).state 0 (inlineCid 1)).map List.length = some 2 := by
  decide +kernel

end Node
end IpfsLite.Graphsync
