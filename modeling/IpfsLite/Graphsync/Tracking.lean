import IpfsLite.Graphsync.FailedRequest

/-! # What is tracked, and what is active

`tracked_requests_` goes by the root and `active_requests_` by the request id; a response is taken to
its root through `request_to_cid_`, which keeps every id. The runs are those of one instance. -/
namespace IpfsLite.Graphsync.GraphsyncImpl
set_option autoImplicit false

open Node (trackResponse completeRequest isStalled)

/-- Entry by entry, what is in progress is an active request for the root. -/
def ProgressActive (g : GraphsyncImpl) : Prop :=
  ∀ rootCid info, g.trackedRequests.find? rootCid = some info → info.state = .inProgress →
    g.localRequests.activeRequests.contains info.requestId = true ∧
      g.localRequests.requestToCid.find? info.requestId = some rootCid

/-- Some entry in progress has the id. -/
def InProgressAs (g : GraphsyncImpl) (id : RequestId) : Prop :=
  ∃ e ∈ g.trackedRequests.entries, e.2.state = .inProgress ∧ e.2.requestId = id

instance (g : GraphsyncImpl) (id : RequestId) : Decidable (g.InProgressAs id) :=
  inferInstanceAs (Decidable (∃ e ∈ g.trackedRequests.entries, _))

/-- There is an id for the request, and its message, if its root can be written, is not too long. -/
def CanBegin (g : GraphsyncImpl) (generator : IdGenerator) (rootCid : CID) (selector : Bytes)
    (extensions : List Extension) : Prop :=
  (g.localRequests.nextRequestId generator).1 ≠ 0 ∧
    ((g.localRequests.withRequest generator rootCid selector extensions).2 = false ∨
      (g.localRequests.withRequest generator rootCid selector extensions).1.serialize ≠ none)

/-- Not a step that leaves an entry in progress without its request: to enter a request that cannot
begin, to answer one in progress with `RS_FULL_CONTENT`, to cancel one in progress. -/
def Orderly (g : GraphsyncImpl) : Step → Prop
  | .makeRequest _ generator rootCid selector extensions =>
    g.isInProgress rootCid = true ∨ g.CanBegin generator rootCid selector extensions
  | .onResponse _ id status => status = .fullContent → ¬g.InProgressAs id
  | .unsubscribe ticket => ¬g.InProgressAs ticket
  | _ => True

instance (g : GraphsyncImpl) : (e : Step) → Decidable (g.Orderly e)
  | .makeRequest _ _ _ _ _ => inferInstanceAs (Decidable (_ = _ ∨ _ ≠ _ ∧ (_ = _ ∨ _ ≠ _)))
  | .onResponse _ _ _ => inferInstanceAs (Decidable (_ → ¬_))
  | .unsubscribe _ => inferInstanceAs (Decidable ¬_)
  | .start | .stop | .cleared | .reject | .onBlock _ _ | .blockProcessed _ | .cleanupStalled _ _
  | .cleanupRemove _ | .cancelRejected | .resetRejectedIds => .isTrue trivial

theorem InProgressAs.of_find? {g : GraphsyncImpl} {rootCid : CID} {info : RequestTrackingInfo}
    (hfind : g.trackedRequests.find? rootCid = some info) (hstate : info.state = .inProgress) :
    g.InProgressAs info.requestId :=
  ⟨(rootCid, info), (AssocMap.find?_some_iff _ _ _).mp hfind, hstate, rfl⟩

/-! ## One step -/

/-- A change to one entry that puts nothing in progress. -/
theorem find?_modifyTracked {g : GraphsyncImpl} {rootCid c : CID} {f : RequestTrackingInfo → RequestTrackingInfo}
    {info : RequestTrackingInfo} (hfind : (g.modifyTracked rootCid f).trackedRequests.find? c = some info) :
    ∃ old, g.trackedRequests.find? c = some old ∧ info = if c = rootCid then f old else old := by
  rw [modifyTracked, AssocMap.find?_modify] at hfind
  by_cases hc : c = rootCid
  · rw [if_pos hc] at hfind
    obtain ⟨old, hold, hinfo⟩ := Option.map_eq_some_iff.mp hfind
    exact ⟨old, hold, by rw [if_pos hc, hinfo]⟩
  · rw [if_neg hc] at hfind
    exact ⟨info, hfind, by rw [if_neg hc]⟩

theorem ProgressActive.modifyTracked {g : GraphsyncImpl} (h : g.ProgressActive) (rootCid : CID)
    {f : RequestTrackingInfo → RequestTrackingInfo}
    (hf : ∀ info, (f info).state = .inProgress → info.state = .inProgress)
    (hid : ∀ info, (f info).requestId = info.requestId) : (g.modifyTracked rootCid f).ProgressActive := by
  intro c info hfind hstate
  obtain ⟨old, hold, rfl⟩ := find?_modifyTracked hfind
  by_cases hc : c = rootCid
  · simp only [if_pos hc] at hstate ⊢
    rw [hid]
    exact h c old hold (hf old hstate)
  · simp only [if_neg hc] at hstate ⊢
    exact h c old hold hstate

/-- An id may leave `active_requests_` when no entry in progress has it. -/
theorem ProgressActive.dropActive {g : GraphsyncImpl} (h : g.ProgressActive) {id : RequestId}
    (hid : ¬g.InProgressAs id) {l : LocalRequests}
    (hactive : l.activeRequests = g.localRequests.activeRequests.erase id)
    (hroots : l.requestToCid = g.localRequests.requestToCid) :
    ProgressActive { g with localRequests := l } := by
  intro c info hfind hstate
  obtain ⟨hold, hroot⟩ := h c info hfind hstate
  have hne : info.requestId ≠ id := fun he => hid (he ▸ InProgressAs.of_find? hfind hstate)
  refine ⟨?_, ?_⟩
  · show l.activeRequests.contains info.requestId = true
    rw [hactive, OrdMap.contains_erase, hold]
    simp [hne]
  · show l.requestToCid.find? info.requestId = some c
    rw [hroots]
    exact hroot

theorem ProgressActive.localResponse {g : GraphsyncImpl} (h : g.ProgressActive) {id : RequestId}
    {status : ResponseStatusCode} (hid : isTerminal status = true → ¬g.InProgressAs id) :
    (g.localResponse id status).ProgressActive := by
  unfold GraphsyncImpl.localResponse LocalRequests.onResponse
  by_cases hactive : g.localRequests.activeRequests.contains id = false
  · rw [if_pos hactive]
    exact h
  · rw [if_neg hactive]
    by_cases hterminal : isTerminal status = true
    · rw [if_pos hterminal]
      exact h.dropActive (hid hterminal) rfl rfl
    · rw [if_neg hterminal]
      exact h

theorem ProgressActive.unsubscribe {g : GraphsyncImpl} (h : g.ProgressActive) {ticket : RequestId}
    (hid : ¬g.InProgressAs ticket) :
    ProgressActive { g with localRequests := (g.localRequests.unsubscribe ticket).1 } := by
  unfold LocalRequests.unsubscribe
  split
  · exact h
  · split
    · exact h
    · exact h.dropActive hid rfl rfl

/-- The entry that a response finds is no longer in progress if the request ends by it. -/
theorem ProgressActive.onResponse {g : GraphsyncImpl} (h : g.ProgressActive) (now : ℕ) {id : RequestId}
    {status : ResponseStatusCode} (hfull : status = .fullContent → ¬g.InProgressAs id) :
    (g.onResponse now id status).ProgressActive := by
  unfold GraphsyncImpl.onResponse
  cases hroot : g.localRequests.getRequestRootCid id with
  | none =>
    refine h.localResponse fun _ => ?_
    rintro ⟨e, he, hstate, rfl⟩
    have hfind := (AssocMap.find?_some_iff _ e.1 e.2).mpr he
    have hsome := (h e.1 e.2 hfind hstate).2
    rw [show g.localRequests.requestToCid.find? e.2.requestId = none from hroot] at hsome
    cases hsome
  | some rootCid =>
    have htracked : (g.modifyTracked rootCid (trackResponse now status)).ProgressActive := by
      refine h.modifyTracked rootCid (fun info hstate => ?_) fun _ => rfl
      simp only [trackResponse] at hstate
      split at hstate
      · cases hstate
      · exact hstate
    refine htracked.localResponse fun hterminal => ?_
    rintro ⟨e, he, hstate, rfl⟩
    have hfind := (AssocMap.find?_some_iff _ e.1 e.2).mpr he
    obtain ⟨old, hold, hnew⟩ := find?_modifyTracked hfind
    have hsame := (htracked e.1 e.2 hfind hstate).2
    rw [show (g.modifyTracked rootCid _).localRequests.requestToCid.find? e.2.requestId = some rootCid
      from hroot, Option.some_inj] at hsame
    rw [if_pos hsame.symm] at hnew
    -- only the success status leaves the entry as it was
    rw [hnew] at hstate
    simp only [trackResponse, hterminal, Bool.true_and, decide_eq_true_eq, ite_not] at hstate
    split at hstate
    · rename_i hstatus
      have hid : e.2.requestId = old.requestId := by
        rw [hnew]
        rfl
      rw [hid] at hfull
      exact hfull hstatus (InProgressAs.of_find? hold hstate)
    · cases hstate

theorem ProgressActive.failStalled {g : GraphsyncImpl} (h : g.ProgressActive) {rootCid : CID}
    {info : RequestTrackingInfo} (hfind : g.trackedRequests.find? rootCid = some info)
    (hstate : info.state = .inProgress) : (g.failStalled rootCid info.requestId).ProgressActive := by
  have hfailed : (g.modifyTracked rootCid fun info => { info with state := .failed }).ProgressActive :=
    h.modifyTracked rootCid (fun _ hstate => by cases hstate) fun _ => rfl
  refine hfailed.localResponse fun _ => ?_
  rintro ⟨e, he, hprogress, hid⟩
  have hfind' := (AssocMap.find?_some_iff _ e.1 e.2).mpr he
  obtain ⟨old, hold, hnew⟩ := find?_modifyTracked hfind'
  have hroot := (h rootCid info hfind hstate).2
  have hroot' := (hfailed e.1 e.2 hfind' hprogress).2
  rw [hid, show (g.modifyTracked rootCid _).localRequests.requestToCid.find? info.requestId = some rootCid
    from hroot, Option.some_inj] at hroot'
  rw [if_pos hroot'.symm] at hnew
  rw [hnew] at hprogress
  cases hprogress

theorem ProgressActive.makeRequest {g : GraphsyncImpl} (h : g.ProgressActive) (now : ℕ)
    {generator : IdGenerator} {rootCid : CID} {selector : Bytes} {extensions : List Extension}
    (hok : g.isInProgress rootCid = true ∨ g.CanBegin generator rootCid selector extensions) :
    (g.makeRequest now generator rootCid selector extensions).ProgressActive := by
  unfold GraphsyncImpl.makeRequest
  by_cases hprogress : g.isInProgress rootCid = true
  · rw [if_pos hprogress]
    exact h
  rw [if_neg hprogress]
  obtain ⟨hid, hbegin⟩ := hok.resolve_left hprogress
  dsimp only
  rcases LocalRequests.newRequest_cases g.localRequests generator rootCid selector extensions rfl rfl with
    ⟨hnone, hl, -⟩ | ⟨-, -, -, -, -, hzero | ⟨hadded, hnone⟩⟩ |
      ⟨id, body, hsome, -, hnew, hactive, -, -, hroots, -⟩
  · simp only [hnone, hl]
    exact h
  · exact absurd hzero hid
  · rcases hbegin with hbegin | hbegin
    · rw [hadded] at hbegin
      cases hbegin
    · exact absurd hnone hbegin
  · simp only [hsome]
    intro c info hfind hstate
    simp only [AssocMap.find?_insert] at hfind
    simp only [hactive, hroots, OrdMap.contains_insert, AssocMap.find?_insert]
    by_cases hc : c = rootCid
    · rw [if_pos hc, Option.some_inj] at hfind
      rw [← hfind, hc]
      simp
    · rw [if_neg hc] at hfind
      obtain ⟨hold, hroot⟩ := h c info hfind hstate
      have hne : info.requestId ≠ id := by
        intro he
        rw [he, hnew] at hold
        cases hold
      rw [hold, if_neg hne, hroot]
      simp

/-- One case for each step. -/
theorem ProgressActive.step {g k : GraphsyncImpl} {e : Step} (h : g.ProgressActive) (hok : g.Orderly e)
    (hs : step g e = some k) : k.ProgressActive := by
  cases e with
  | makeRequest now generator rootCid selector extensions =>
    simp only [GraphsyncImpl.step] at hs
    split at hs
    · cases hs
      exact h.makeRequest now hok
    · cases hs
  | onResponse now id status =>
    simp only [GraphsyncImpl.step] at hs
    split at hs
    · cases hs
      exact h.onResponse now hok
    · cases hs
  | onBlock now rootCid =>
    simp only [GraphsyncImpl.step] at hs
    split at hs
    · cases hs
      exact h.modifyTracked rootCid (fun _ hstate => hstate) fun _ => rfl
    · cases hs
  | blockProcessed rootCid =>
    cases hs
    refine h.modifyTracked rootCid (fun info hstate => ?_) fun info => ?_
    · by_contra hne
      rw [completeRequest, if_neg hne] at hstate
      exact hne hstate
    · unfold completeRequest
      split <;> rfl
  | unsubscribe ticket =>
    cases hs
    exact h.unsubscribe hok
  | cleanupStalled now rootCid =>
    simp only [GraphsyncImpl.step] at hs
    split at hs
    · cases hs
    · rename_i info hfind
      split at hs
      · rename_i hstalled
        cases hs
        exact h.failStalled hfind hstalled.1
      · cases hs
  | cleanupRemove rootCid =>
    cases hs
    intro c info hfind hstate
    simp only [untrack, AssocMap.find?_erase] at hfind
    split at hfind
    · cases hfind
    · exact h c info hfind hstate
  | cleared =>
    cases hs
    intro c info hfind _
    cases hfind
  | resetRejectedIds =>
    simp only [GraphsyncImpl.step] at hs
    split at hs
    · cases hs
      exact h
    · cases hs
  | start | stop | reject | cancelRejected =>
    cases hs
    exact h

/-! ## Runs -/

/-- **An entry in progress has its active request** in every run of orderly steps; so a root all of
whose requests have ended is not in progress. -/
theorem in_progress_active {es : List Step} {g : GraphsyncImpl} (hr : Runs.run step initial es = some g)
    (hok : Runs.EveryStep step Orderly initial es) (rootCid : CID) :
    (∀ info, g.trackedRequests.find? rootCid = some info → info.state = .inProgress →
      g.localRequests.activeRequests.contains info.requestId = true) ∧
    ((∀ id, g.localRequests.getRequestRootCid id = some rootCid →
      g.localRequests.activeRequests.contains id = false) → g.isInProgress rootCid = false) := by
  have hinitial : initial.ProgressActive := fun _ _ hfind _ => by cases hfind
  have hinv := Runs.run_invariant ProgressActive (fun _ _ _ h hok hs => h.step hok hs) hinitial hok hr
  refine ⟨fun info hfind hstate => (hinv rootCid info hfind hstate).1, fun hended => ?_⟩
  cases hfind : g.trackedRequests.find? rootCid with
  | none =>
    rw [isInProgress, hfind]
    rfl
  | some info =>
    rw [isInProgress, hfind, Option.any_some, decide_eq_false_iff_not]
    intro hstate
    obtain ⟨hactive, hroot⟩ := hinv rootCid info hfind hstate
    rw [hended info.requestId hroot] at hactive
    cases hactive

/-- One request that is made and not answered yet. -/
def askedSteps : List Step := [.start, .makeRequest 0 .initial (Node.inlineCid 1) [] []]

theorem asked_in_progress_active :
    (∀ info, (Runs.last step initial askedSteps).trackedRequests.find? (Node.inlineCid 1) = some info →
      info.state = .inProgress →
      (Runs.last step initial askedSteps).localRequests.activeRequests.contains info.requestId = true) ∧
    ((∀ id, (Runs.last step initial askedSteps).localRequests.getRequestRootCid id = some (Node.inlineCid 1) →
      (Runs.last step initial askedSteps).localRequests.activeRequests.contains id = false) →
      (Runs.last step initial askedSteps).isInProgress (Node.inlineCid 1) = false) :=
  in_progress_active (Runs.run_last (by decide +kernel)) (by decide +kernel) (Node.inlineCid 1)

end IpfsLite.Graphsync.GraphsyncImpl

namespace IpfsLite.Graphsync.Node

def askingAgainRun : List (Reentrant.Move Op) :=
  cancellingRun ++ [.invoke (.makeRequest 0 9 none (inlineCid 1) [] [])]

/-- The request is cancelled by its subscription and no longer active. Its root stays in progress, and
the next request for it is turned down. -/
theorem cancelled_in_progress :
    (Runs.run step (Reentrant.Config.start initial) askingAgainRun).isSome = true ∧
      (after cancellingRun).frames.isEmpty = true ∧
      ((after cancellingRun).state.instances 0).localRequests.activeRequests.keys = [] ∧
      ((after cancellingRun).state.instances 0).trackedRequests.find? (inlineCid 1) =
        some ⟨.inProgress, 1, 0, 0⟩ ∧
      ((after askingAgainRun).state.instances 0).localRequests.activeRequests.keys = [] ∧
      ((after askingAgainRun).state.instances 0).localRequests.rejectedRequests.keys = [-1] := by
  decide +kernel

end IpfsLite.Graphsync.Node
