import IpfsLite.Graphsync.Tracking

/-! # Cleaning up by the clock

An instance with its scheduler: the constructor schedules `cleanupOldRequests` through
`weak_from_this()`, and every cleanup schedules the next. A callback does nothing when its weak
pointer does not lock. The scheduler runs a callback when it is due, before time goes on. -/
namespace IpfsLite.Graphsync
set_option autoImplicit false

open Node (isStalled kRequestActivityTimeoutMs)

def kCleanupIntervalMs : ℕ := 120000

/-- A scheduled cleanup. -/
structure Cleanup where
  due : ℕ
  /-- the weak pointer refers to the object -/
  locks : Bool
  deriving DecidableEq

structure Timed where
  impl : GraphsyncImpl
  /-- a `shared_ptr` owns the object, so `weak_from_this()` refers to it -/
  owned : Bool
  now : ℕ
  scheduled : List Cleanup

namespace GraphsyncImpl

/-- One turn of the loop of `cleanupOldRequests`. -/
def cleanupEntry (g : GraphsyncImpl) (now : ℕ) (rootCid : CID) : GraphsyncImpl :=
  match g.trackedRequests.find? rootCid with
  | none => g
  | some info =>
    if info.state ≠ .inProgress then g.untrack rootCid
    else if isStalled now info then (g.failStalled rootCid info.requestId).untrack rootCid
    else g

/-- The steps that are taken at a time; those of the cleanup are taken by it alone. -/
def Step.takenAt (now : ℕ) : Step → Bool
  | .makeRequest t _ _ _ _ | .onResponse t _ _ | .onBlock t _ => t = now
  | .cleanupStalled _ _ | .cleanupRemove _ => false
  | _ => true

end GraphsyncImpl

namespace Timed

def scheduleCleanup (t : Timed) : Timed :=
  { t with scheduled := t.scheduled ++ [⟨t.now + kCleanupIntervalMs, t.owned⟩] }

/-- The body of the constructor. -/
def construct (owned : Bool) (now : ℕ) : Timed := scheduleCleanup ⟨.initial, owned, now, []⟩

/-- `std::make_shared<GraphsyncImpl>`: the object is owned once its constructor is through. -/
def makeShared (now : ℕ) : Timed := { construct false now with owned := true }

def cleanupOldRequests (t : Timed) : Timed :=
  scheduleCleanup { t with
    impl := (t.impl.trackedRequests.entries.map Prod.fst).foldl
      (fun g rootCid => g.cleanupEntry t.now rootCid) t.impl }

def runCallback (t : Timed) (c : Cleanup) : Timed := if c.locks then t.cleanupOldRequests else t

inductive Event where
  | act (e : GraphsyncImpl.Step)
  | tick (now : ℕ)
  | fire

def step (t : Timed) : Event → Option Timed
  | .act e =>
    if e.takenAt t.now then (GraphsyncImpl.step t.impl e).map fun g => { t with impl := g } else none
  | .tick now =>
    if t.now ≤ now ∧ ∀ c ∈ t.scheduled, now ≤ c.due then some { t with now := now } else none
  | .fire =>
    match t.scheduled with
    | [] => none
    | c :: rest => if c.due ≤ t.now then some (runCallback { t with scheduled := rest } c) else none

/-- No entry is in progress beyond the bounds. -/
def Reaped (t : Timed) : Prop :=
  ∀ rootCid info, t.impl.trackedRequests.find? rootCid = some info → info.state = .inProgress →
    t.now - info.startTime ≤ 2 * kRequestActivityTimeoutMs + kCleanupIntervalMs ∧
      t.now - info.lastActivityTime ≤ kRequestActivityTimeoutMs + kCleanupIntervalMs

/-! ## The callback of the constructor -/

/-- At most the callback of the constructor is scheduled, and it does not lock. -/
def Dead (t : Timed) : Prop :=
  t.scheduled = [] ∨ ∃ due, t.scheduled = [⟨due, false⟩] ∧ t.now ≤ due

theorem dead_step {t u : Timed} {e : Event} (h : t.Dead) (hs : step t e = some u) : u.Dead := by
  cases e with
  | act e =>
    simp only [Timed.step] at hs
    split at hs
    · obtain ⟨g, -, rfl⟩ := Option.map_eq_some_iff.mp hs
      exact h
    · cases hs
  | tick now =>
    simp only [Timed.step] at hs
    split at hs
    · rename_i hnow
      cases hs
      rcases h with hnone | ⟨due, hone, -⟩
      · exact .inl hnone
      · exact .inr ⟨due, hone, hnow.2 _ (hone ▸ List.mem_singleton_self _)⟩
    · cases hs
  | fire =>
    rcases h with hnone | ⟨due, hone, -⟩
    · simp only [Timed.step, hnone] at hs
      cases hs
    · simp only [Timed.step, hone] at hs
      split at hs
      · cases hs
        exact .inl rfl
      · cases hs

theorem dead_of_run {now : ℕ} {es : List Event} {t : Timed}
    (hr : Runs.run step (makeShared now) es = some t) : t.Dead :=
  Runs.run_invariant Dead (fun _ _ _ h _ hs => dead_step h hs)
    (.inr ⟨now + kCleanupIntervalMs, rfl, Nat.le_add_right _ _⟩) (Runs.everyStep_true _ es) hr

/-- Time can pass, and nothing else happens. -/
theorem dead_wait {t : Timed} (h : t.Dead) (wait : ℕ) :
    ∃ es u, Runs.run step t es = some u ∧ u.now = t.now + wait ∧ u.impl = t.impl := by
  have htick {s : Timed} (now : ℕ) (hle : s.now ≤ now) (hdue : ∀ c ∈ s.scheduled, now ≤ c.due) :
      step s (.tick now) = some { s with now := now } := if_pos ⟨hle, hdue⟩
  rcases h with hnone | ⟨due, hone, hnow⟩
  · refine ⟨[.tick (t.now + wait)], { t with now := t.now + wait }, ?_, rfl, rfl⟩
    rw [Runs.run_cons, htick _ (Nat.le_add_right _ _) fun c hc => (by rw [hnone] at hc; cases hc)]
    rfl
  · have hmem {c : Cleanup} (hc : c ∈ t.scheduled) : c.due = due := by
      rw [hone, List.mem_singleton] at hc
      rw [hc]
    by_cases hwait : t.now + wait ≤ due
    · refine ⟨[.tick (t.now + wait)], { t with now := t.now + wait }, ?_, rfl, rfl⟩
      rw [Runs.run_cons, htick _ (Nat.le_add_right _ _) fun c hc => (hmem hc).symm ▸ hwait]
      rfl
    · -- the callback fires when it is due, in vain
      let fired : Timed := { t with now := due, scheduled := [] }
      have hfire : step { t with now := due } .fire = some fired := by
        simp only [Timed.step, hone, if_pos (le_refl due)]
        rfl
      refine ⟨[.tick due, .fire, .tick (t.now + wait)], { fired with now := t.now + wait }, ?_, rfl, rfl⟩
      rw [Runs.run_cons, htick due hnow fun c hc => (hmem hc).symm ▸ le_refl due, Option.bind_some,
        Runs.run_cons, hfire, Option.bind_some, Runs.run_cons,
        htick _ (Nat.le_of_not_le hwait) fun c hc => (by cases hc)]
      rfl

/-- **Nothing is ever reaped**: whatever has happened since the object was made, an entry in progress
stays, and waiting takes it beyond both bounds. -/
theorem never_reaped {now : ℕ} {es : List Event} {t : Timed}
    (hr : Runs.run step (makeShared now) es = some t) {rootCid : CID} {info : RequestTrackingInfo}
    (hfind : t.impl.trackedRequests.find? rootCid = some info) (hstate : info.state = .inProgress) :
    ∃ fs u, Runs.run step (makeShared now) (es ++ fs) = some u ∧
      u.impl.trackedRequests.find? rootCid = some info ∧
      2 * kRequestActivityTimeoutMs + kCleanupIntervalMs < u.now - info.startTime ∧
      kRequestActivityTimeoutMs + kCleanupIntervalMs < u.now - info.lastActivityTime ∧ ¬u.Reaped := by
  obtain ⟨fs, u, hrun, hnow, himpl⟩ := dead_wait (dead_of_run hr)
    (info.startTime + info.lastActivityTime + 2 * kRequestActivityTimeoutMs + kCleanupIntervalMs + 1)
  have hstart : 2 * kRequestActivityTimeoutMs + kCleanupIntervalMs < u.now - info.startTime := by omega
  refine ⟨fs, u, ?_, himpl ▸ hfind, hstart, by omega, fun hreaped => ?_⟩
  · rw [Runs.run_append, hr]
    exact hrun
  · have hbound := (hreaped rootCid info (himpl ▸ hfind) hstate).1
    omega

def askedEvents : List Event :=
  [.act .start, .act (.makeRequest 0 .initial (Node.inlineCid 1) [] [])]

/-- The state after a run of an object that is made at time 0. -/
def after (es : List Event) : Timed := Runs.last step (makeShared 0) es

theorem asked_never_reaped : ∃ fs u, Runs.run step (makeShared 0) (askedEvents ++ fs) = some u ∧
    u.impl.trackedRequests.find? (Node.inlineCid 1) = some ⟨.inProgress, 1, 0, 0⟩ ∧
    2 * kRequestActivityTimeoutMs + kCleanupIntervalMs < u.now - 0 ∧
    kRequestActivityTimeoutMs + kCleanupIntervalMs < u.now - 0 ∧ ¬u.Reaped := by
  have hrun : Runs.run step (makeShared 0) askedEvents = some (after askedEvents) :=
    Runs.run_last (by decide +kernel)
  have hfind : (after askedEvents).impl.trackedRequests.find? (Node.inlineCid 1) =
    some ⟨.inProgress, 1, 0, 0⟩ := by decide +kernel
  exact never_reaped hrun hfind rfl

def stalledEvents : List Event := askedEvents ++ [.tick 120000, .fire, .tick 600000]

/-- The one callback fires two minutes after the request was made and finds no object. Eight minutes
later the request is still in progress, and no further cleanup is scheduled. -/
theorem stalled_request_stays :
    (Runs.run step (makeShared 0) stalledEvents).isSome = true ∧ (after stalledEvents).now = 600000 ∧
      (after stalledEvents).impl.trackedRequests.find? (Node.inlineCid 1) =
        some ⟨.inProgress, 1, 0, 0⟩ ∧
      (after stalledEvents).scheduled = [] ∧
      2 * kRequestActivityTimeoutMs + kCleanupIntervalMs < 600000 := by
  decide +kernel

/-! ## If the first callback locked -/

/-- What a cleanup leaves as it is. -/
def keeps (now : ℕ) (info : RequestTrackingInfo) : Bool := info.state = .inProgress && !isStalled now info

theorem find?_cleanupEntry (now : ℕ) (g : GraphsyncImpl) (rootCid c : CID) :
    (g.cleanupEntry now rootCid).trackedRequests.find? c =
      if c = rootCid then (g.trackedRequests.find? c).filter (keeps now) else g.trackedRequests.find? c := by
  unfold GraphsyncImpl.cleanupEntry
  cases hfind : g.trackedRequests.find? rootCid with
  | none =>
    dsimp only
    split
    · rename_i hc
      rw [hc, hfind]
      rfl
    · rfl
  | some info =>
    have hkeep : (g.trackedRequests.find? rootCid).filter (keeps now) =
        if info.state = .inProgress ∧ isStalled now info = false then some info else none := by
      rw [hfind, Option.filter_some, keeps]
      simp
    by_cases hprogress : info.state = .inProgress
    · by_cases hstalled : isStalled now info = true
      · simp only [if_neg (not_not.mpr hprogress), if_pos hstalled]
        by_cases hc : c = rootCid
        · rw [if_pos hc, hc, hkeep, if_neg (by rw [hstalled]; simp)]
          simp [GraphsyncImpl.untrack]
        · simp [GraphsyncImpl.untrack, GraphsyncImpl.failStalled, GraphsyncImpl.localResponse,
            GraphsyncImpl.modifyTracked, hc]
      · simp only [if_neg (not_not.mpr hprogress), if_neg hstalled]
        by_cases hc : c = rootCid
        · rw [if_pos hc, hc, hkeep, hfind, if_pos ⟨hprogress, Bool.eq_false_of_not_eq_true hstalled⟩]
        · rw [if_neg hc]
    · simp only [if_pos hprogress]
      by_cases hc : c = rootCid
      · rw [if_pos hc, hc, hkeep, if_neg fun h => hprogress h.1]
        simp [GraphsyncImpl.untrack]
      · simp [GraphsyncImpl.untrack, hc]

theorem find?_cleanupEntries (now : ℕ) (roots : List CID) (g : GraphsyncImpl) (c : CID) :
    (roots.foldl (fun g rootCid => g.cleanupEntry now rootCid) g).trackedRequests.find? c =
      if c ∈ roots then (g.trackedRequests.find? c).filter (keeps now) else g.trackedRequests.find? c := by
  induction roots generalizing g with
  | nil => rfl
  | cons rootCid roots ih =>
    rw [List.foldl_cons, ih, find?_cleanupEntry]
    by_cases hc : c = rootCid
    · rw [if_pos hc, Option.filter_filter]
      simp [hc]
    · simp [hc]

/-- Whatever is still in progress after a cleanup is not stalled. -/
theorem find?_cleanupOldRequests {t : Timed} {c : CID} {info : RequestTrackingInfo}
    (hfind : t.cleanupOldRequests.impl.trackedRequests.find? c = some info) :
    t.impl.trackedRequests.find? c = some info ∧ isStalled t.now info = false := by
  have hfold := (find?_cleanupEntries t.now (t.impl.trackedRequests.entries.map Prod.fst) t.impl c).symm.trans
    hfind
  by_cases hc : c ∈ t.impl.trackedRequests.entries.map Prod.fst
  · rw [if_pos hc] at hfold
    obtain ⟨hsome, hkeeps⟩ := Option.filter_eq_some_iff.mp hfold
    rw [keeps, Bool.and_eq_true, Bool.not_eq_true'] at hkeeps
    exact ⟨hsome, hkeeps.2⟩
  · rw [if_neg hc] at hfold
    exact absurd (List.mem_map_of_mem ((AssocMap.find?_some_iff _ _ _).mp hfold)) hc

/-- One cleanup that locks is scheduled, and no entry passes a bound before it runs. -/
structure Armed (t : Timed) (due : ℕ) : Prop where
  owned : t.owned = true
  scheduled : t.scheduled = [⟨due, true⟩]
  pending : t.now ≤ due
  interval : due ≤ t.now + kCleanupIntervalMs
  bounds {rootCid : CID} {info : RequestTrackingInfo} :
    t.impl.trackedRequests.find? rootCid = some info → info.state = .inProgress →
      due ≤ info.startTime + 2 * kRequestActivityTimeoutMs + kCleanupIntervalMs ∧
        due ≤ info.lastActivityTime + kRequestActivityTimeoutMs + kCleanupIntervalMs

theorem Armed.reaped {t : Timed} {due : ℕ} (h : t.Armed due) : t.Reaped := by
  intro rootCid info hfind hstate
  have hbounds := h.bounds hfind hstate
  have hpending := h.pending
  omega

/-- An entry in progress now against the tables before: it was in progress and has lost no time, or
it is new. -/
def Fresh (now : ℕ) (g : GraphsyncImpl) (c : CID) (info : RequestTrackingInfo) : Prop :=
  (∃ old, g.trackedRequests.find? c = some old ∧ old.state = .inProgress ∧
    info.startTime = old.startTime ∧
    (info.lastActivityTime = old.lastActivityTime ∨ info.lastActivityTime = now)) ∨
  (info.startTime = now ∧ info.lastActivityTime = now)

section
variable {now : ℕ} {g : GraphsyncImpl} {c : CID} {info : RequestTrackingInfo}

theorem Fresh.same (hfind : g.trackedRequests.find? c = some info) (hstate : info.state = .inProgress) :
    Fresh now g c info :=
  .inl ⟨info, hfind, hstate, rfl, .inl rfl⟩

theorem Fresh.modify {rootCid : CID} {f : RequestTrackingInfo → RequestTrackingInfo}
    (hfind : (g.modifyTracked rootCid f).trackedRequests.find? c = some info)
    (hstate : info.state = .inProgress)
    (hf : ∀ old, (f old).state = .inProgress → old.state = .inProgress ∧
      (f old).startTime = old.startTime ∧
      ((f old).lastActivityTime = old.lastActivityTime ∨ (f old).lastActivityTime = now)) :
    Fresh now g c info := by
  obtain ⟨old, hold, rfl⟩ := GraphsyncImpl.find?_modifyTracked hfind
  by_cases hc : c = rootCid
  · rw [if_pos hc] at hstate ⊢
    obtain ⟨hprogress, hstart, hactivity⟩ := hf old hstate
    exact .inl ⟨old, hold, hprogress, hstart, hactivity⟩
  · rw [if_neg hc] at hstate ⊢
    exact Fresh.same hold hstate

theorem Fresh.makeRequest {generator : IdGenerator} {rootCid : CID} {selector : Bytes}
    {extensions : List Extension}
    (hfind : (g.makeRequest now generator rootCid selector extensions).trackedRequests.find? c = some info)
    (hstate : info.state = .inProgress) : Fresh now g c info := by
  unfold GraphsyncImpl.makeRequest at hfind
  split at hfind
  · exact Fresh.same hfind hstate
  · dsimp only at hfind
    split at hfind
    · exact Fresh.same hfind hstate
    · simp only [AssocMap.find?_insert] at hfind
      split at hfind
      · cases hfind
        exact .inr ⟨rfl, rfl⟩
      · exact Fresh.same hfind hstate

theorem Fresh.onResponse {id : RequestId} {status : ResponseStatusCode}
    (hfind : (g.onResponse now id status).trackedRequests.find? c = some info)
    (hstate : info.state = .inProgress) : Fresh now g c info := by
  unfold GraphsyncImpl.onResponse at hfind
  split at hfind
  · exact Fresh.same hfind hstate
  · refine Fresh.modify hfind hstate fun old hprogress => ⟨?_, rfl, .inr rfl⟩
    simp only [Node.trackResponse] at hprogress
    split at hprogress
    · cases hprogress
    · exact hprogress

/-- One case for each step that the cleanup does not take. -/
theorem Fresh.of_step {k : GraphsyncImpl} {e : GraphsyncImpl.Step} (hnow : e.takenAt now = true)
    (hs : GraphsyncImpl.step g e = some k) (hfind : k.trackedRequests.find? c = some info)
    (hstate : info.state = .inProgress) : Fresh now g c info := by
  cases e with
  | makeRequest time generator rootCid selector extensions =>
    obtain rfl : time = now := of_decide_eq_true hnow
    simp only [GraphsyncImpl.step] at hs
    split at hs
    · cases hs
      exact Fresh.makeRequest hfind hstate
    · cases hs
  | onResponse time id status =>
    obtain rfl : time = now := of_decide_eq_true hnow
    simp only [GraphsyncImpl.step] at hs
    split at hs
    · cases hs
      exact Fresh.onResponse hfind hstate
    · cases hs
  | onBlock time rootCid =>
    obtain rfl : time = now := of_decide_eq_true hnow
    simp only [GraphsyncImpl.step] at hs
    split at hs
    · cases hs
      exact Fresh.modify hfind hstate fun old hprogress => ⟨hprogress, rfl, .inr rfl⟩
    · cases hs
  | blockProcessed rootCid =>
    cases hs
    refine Fresh.modify hfind hstate fun old hprogress => ?_
    unfold Node.completeRequest at hprogress ⊢
    split at hprogress
    · cases hprogress
    · rename_i hne
      exact absurd hprogress hne
  | cleanupStalled time rootCid | cleanupRemove rootCid => cases hnow
  | cleared =>
    cases hs
    cases hfind
  | resetRejectedIds =>
    simp only [GraphsyncImpl.step] at hs
    split at hs
    · cases hs
      exact Fresh.same hfind hstate
    · cases hs
  | start | stop | reject | cancelRejected | unsubscribe ticket =>
    cases hs
    exact Fresh.same hfind hstate

end

theorem armed_step {t u : Timed} {due : ℕ} {e : Event} (h : t.Armed due) (hs : step t e = some u) :
    ∃ next, u.Armed next := by
  have hpending := h.pending
  have hinterval := h.interval
  cases e with
  | act e =>
    simp only [step] at hs
    split at hs
    · rename_i hnow
      obtain ⟨g, hg, rfl⟩ := Option.map_eq_some_iff.mp hs
      refine ⟨due, h.owned, h.scheduled, hpending, hinterval, fun {rootCid info} hfind hstate => ?_⟩
      rcases Fresh.of_step hnow hg hfind hstate with ⟨old, hold, hprogress, hstart, hactivity⟩ | hnew
      · have hbounds := h.bounds hold hprogress
        rcases hactivity with hactivity | hactivity <;> omega
      · omega
    · cases hs
  | tick now =>
    simp only [step] at hs
    split at hs
    · rename_i hnow
      cases hs
      have hdue : now ≤ due := hnow.2 _ (h.scheduled ▸ List.mem_singleton_self _)
      exact ⟨due, h.owned, h.scheduled, hdue, hinterval.trans (Nat.add_le_add_right hnow.1 _), h.bounds⟩
    · cases hs
  | fire =>
    simp only [step, h.scheduled] at hs
    split at hs
    · cases hs
      refine ⟨t.now + kCleanupIntervalMs, h.owned, ?_, Nat.le_add_right _ _, le_refl _,
        fun {rootCid info} hfind hstate => ?_⟩
      · show [] ++ [(⟨t.now + kCleanupIntervalMs, t.owned⟩ : Cleanup)] = _
        rw [h.owned]
        rfl
      · -- the cleanup has just run
        obtain ⟨-, hstalled⟩ := find?_cleanupOldRequests hfind
        simp only [isStalled, Bool.or_eq_false_iff, decide_eq_false_iff_not] at hstalled
        omega
    · cases hs

/-- Had the object been owned when its constructor ran, no entry would pass a bound. -/
theorem reaped_of_owned {now : ℕ} {es : List Event} {t : Timed}
    (hr : Runs.run step (construct true now) es = some t) : t.Reaped := by
  have hinitial : ∃ due, (construct true now).Armed due :=
    ⟨now + kCleanupIntervalMs, rfl, rfl, Nat.le_add_right _ _, le_refl _, fun hfind => by cases hfind⟩
  obtain ⟨due, harmed⟩ := Runs.run_invariant (fun t => ∃ due, t.Armed due)
    (fun _ _ _ ⟨_, h⟩ _ hs => armed_step h hs) hinitial (Runs.everyStep_true _ es) hr
  exact harmed.reaped

end Timed
end IpfsLite.Graphsync
