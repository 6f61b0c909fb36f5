import IpfsLite.Foundations.Upfront
import IpfsLite.Graphsync.RequestTable

/-! # Registered requests

The active requests, their callbacks and their root CIDs. Whatever an operation of `LocalRequests` does
to them it does before its first callback, so between callbacks they change as if every operation were
one step. -/
namespace IpfsLite.Graphsync.RequestTable
set_option autoImplicit false

open Reentrant

structure Registered where
  active : OrdMap RequestId Unit
  rootCid : AssocMap RequestId CID
  callback : RequestId → ℕ
  made : ℕ

def registered (s : RequestTable) : Registered :=
  ⟨s.requests.activeRequests, s.requests.requestToCid, s.activeCallback, s.made⟩

/-- What an operation does to them. -/
def register (s : RequestTable) : Op → Registered
  | .newRequest g rootCid selector extensions => registered (addRequest g rootCid selector extensions s)
  | .newRejectedRequest => { registered s with made := s.made + 1 }
  | .onResponse id status _ => { registered s with active := (s.requests.onResponse id status).1.activeRequests }
  | .unsubscribe ticket => { registered s with active := (s.requests.unsubscribe ticket).1.activeRequests }
  | .notifyRejected => registered s
  | .cancelAll => { registered s with active := .empty }

theorem tell_settles (r : ℕ) (status : ResponseStatusCode) (extensions : List Extension) (s : RequestTable) :
    Settles registered (registered s) (tell r status extensions s) :=
  @Settles.call _ _ _ registered (.progress r status extensions) (note (.progress r status) s)

theorem cancelLoop_settles (callbacks : List ℕ) (s : RequestTable) :
    Settles registered (registered s) (cancelLoop callbacks s) :=
  Settles.forM (fun r t => tell_settles r .rejectedLocally [] { t with detached := t.detached.erase r })
    callbacks s

theorem cancelRejected_settles (s : RequestTable) :
    Settles registered (registered s) (cancelRejected s) :=
  cancelLoop_settles s.rejectedCallbacks 
    (s.detach s.rejectedCallbacks { s.requests with rejectedRequests := .empty })

theorem resetRejectedIds_registered (s : RequestTable) : registered (resetRejectedIds s) = registered s := by
  unfold resetRejectedIds
  split <;> rfl

theorem onResponse_requestToCid (l : LocalRequests) (id : RequestId) (status : ResponseStatusCode) :
    (l.onResponse id status).1.requestToCid = l.requestToCid := by
  unfold LocalRequests.onResponse
  split
  · rfl
  · split <;> rfl

theorem unsubscribe_requestToCid (l : LocalRequests) (ticket : RequestId) :
    (l.unsubscribe ticket).1.requestToCid = l.requestToCid := by
  unfold LocalRequests.unsubscribe
  split
  · rfl
  · split <;> rfl

/-- Seen so, the operations are atomic. -/
theorem op_settles (o : Op) (s : RequestTable) : Settles registered (register s o) (op o s) := by
  cases o with
  | newRequest g rootCid selector extensions => exact rfl
  | newRejectedRequest => exact rfl
  | onResponse id status extensions =>
    have hroots : registered (s.setRequests (s.requests.onResponse id status).1) =
        register s (.onResponse id status extensions) := by
      rw [register, registered, registered, setRequests, onResponse_requestToCid]
    show Settles registered _ (Prog.when _ _ _)
    rw [← hroots]
    exact Settles.when fun _ => tell_settles _ status extensions _
  | unsubscribe ticket =>
    have hroots : registered (note (.unsubscribed ticket) (s.setRequests (s.requests.unsubscribe ticket).1)) =
        register s (.unsubscribe ticket) := by
      rw [register, registered, registered, note, setRequests, unsubscribe_requestToCid]
    show Settles registered _ (unsubscribe ticket s)
    rw [← hroots]
    cases h : (s.requests.unsubscribe ticket).2 with
    | none =>
      rw [unsubscribe_none h]
      exact rfl
    | some cancelled =>
      rw [unsubscribe_some h]
      exact Settles.call _ _
  | notifyRejected =>
    refine Settles.when fun _ => ?_
    refine (cancelRejected_settles { s with scheduled := s.scheduled - 1 }).bind fun _ t => ?_
    exact resetRejectedIds_registered t
  | cancelAll =>
    refine (cancelLoop_settles s.activeCallbacks
      (s.detach s.activeCallbacks { s.requests with activeRequests := .empty })).bind fun _ t => ?_
    exact cancelRejected_settles t

/-- What a move does to the registered requests. -/
theorem step_registered {c c' : Config RequestTable Call} {m : Move Op} (hc : c.Settled registered)
    (hs : step c m = some c') :
    c'.Settled registered ∧
      registered c'.state = Config.viewAfter registered (fun o s => register s o) c.state m :=
  Config.step_settled op_settles hc hs

/-- A request that is made: it becomes active, or it does not. -/
theorem register_newRequest (s : RequestTable) (g : IdGenerator) (rootCid : CID) (selector : Bytes)
    (extensions : List Extension) :
    (∃ made, s.made ≤ made ∧
      register s (.newRequest g rootCid selector extensions) = { registered s with made := made }) ∨
    (s.requests.activeRequests.contains (s.requests.nextRequestId g).1 = false ∧
      (s.requests.nextRequestId g).1 ≠ 0 ∧ register s (.newRequest g rootCid selector extensions) =
        ⟨s.requests.activeRequests.insert (s.requests.nextRequestId g).1 (),
          s.requests.requestToCid.insert (s.requests.nextRequestId g).1 rootCid,
          Function.update s.activeCallback (s.requests.nextRequestId g).1 s.made, s.made + 1⟩) := by
  unfold register addRequest
  rcases LocalRequests.newRequest_cases s.requests g rootCid selector extensions rfl rfl with
    ⟨hnone, hl, -⟩ | ⟨hsome, hactive, -, -, hroots, -⟩ |
      ⟨id, body, hsome, hbody, hfresh, hactive, -, -, hroots, hzero, rfl⟩
  · refine .inl ⟨s.made, le_rfl, ?_⟩
    simp only [hnone, hl]
    rfl
  · refine .inl ⟨s.made + 1, Nat.le_succ _, ?_⟩
    simp only [hsome, if_true, keepRejected, registered, hactive, hroots]
  · refine .inr ⟨hfresh, hzero, ?_⟩
    simp only [hsome, if_neg hbody, keepActive, registered, hactive, hroots]

theorem erase_subset {m n : OrdMap RequestId Unit} {id : RequestId} (h : m = n ∨ m = n.erase id) :
    ∀ j, m.contains j = true → n.contains j = true := by
  rintro j hj
  rcases h with rfl | rfl
  · exact hj
  · rw [OrdMap.contains_erase, Bool.and_eq_true] at hj
    exact hj.2

theorem onResponse_erases (l : LocalRequests) (id : RequestId) (status : ResponseStatusCode) :
    (l.onResponse id status).1.activeRequests = l.activeRequests ∨
      (l.onResponse id status).1.activeRequests = l.activeRequests.erase id := by
  unfold LocalRequests.onResponse
  split
  · exact .inl rfl
  · split
    · exact .inr rfl
    · exact .inl rfl

theorem unsubscribe_erases (l : LocalRequests) (ticket : RequestId) :
    (l.unsubscribe ticket).1.activeRequests = l.activeRequests ∨
      (l.unsubscribe ticket).1.activeRequests = l.activeRequests.erase ticket := by
  unfold LocalRequests.unsubscribe
  split
  · exact .inl rfl
  · split
    · exact .inl rfl
    · exact .inr rfl

/-- The other operations take requests out, if they change them at all. -/
theorem register_shrinks (s : RequestTable) {o : Op}
    (hnew : ∀ g rootCid selector extensions, o ≠ .newRequest g rootCid selector extensions) :
    (∀ id, (register s o).active.contains id = true → s.requests.activeRequests.contains id = true) ∧
      (register s o).rootCid = s.requests.requestToCid ∧ (register s o).callback = s.activeCallback ∧
      s.made ≤ (register s o).made := by
  cases o with
  | newRequest g rootCid selector extensions => exact absurd rfl (hnew g rootCid selector extensions)
  | newRejectedRequest => exact ⟨fun _ hid => hid, rfl, rfl, Nat.le_succ _⟩
  | onResponse id status extensions =>
    exact ⟨erase_subset (onResponse_erases s.requests id status), rfl, rfl, le_rfl⟩
  | unsubscribe ticket => exact ⟨erase_subset (unsubscribe_erases s.requests ticket), rfl, rfl, le_rfl⟩
  | notifyRejected => exact ⟨fun _ hid => hid, rfl, rfl, le_rfl⟩
  | cancelAll => exact ⟨fun _ hid => absurd hid Bool.false_ne_true, rfl, rfl, le_rfl⟩

/-! ## The requests that are ended -/

/-- The operation ends an active request. -/
def EndsRequest (s : RequestTable) : Op → Prop
  | .onResponse id status _ => s.requests.activeRequests.contains id = true ∧ isTerminal status = true
  | .unsubscribe ticket => 0 ≤ ticket ∧ s.requests.activeRequests.contains ticket = true
  | .cancelAll => s.requests.activeRequests.isEmpty = false
  | _ => False

instance (s : RequestTable) (o : Op) : Decidable (s.EndsRequest o) :=
  match o with
  | .onResponse id status _ =>
    inferInstanceAs (Decidable (s.requests.activeRequests.contains id = true ∧ isTerminal status = true))
  | .unsubscribe ticket =>
    inferInstanceAs (Decidable (0 ≤ ticket ∧ s.requests.activeRequests.contains ticket = true))
  | .cancelAll => inferInstanceAs (Decidable (s.requests.activeRequests.isEmpty = false))
  | .newRequest _ _ _ _ | .newRejectedRequest | .notifyRejected => inferInstanceAs (Decidable False)

/-- It is active no longer. -/
theorem EndsRequest.ended {s : RequestTable} {o : Op} (h : s.EndsRequest o) :
    ∃ id, s.requests.activeRequests.contains id = true ∧ (register s o).active.contains id = false ∧
      (register s o).rootCid = s.requests.requestToCid := by
  cases o with
  | newRequest | newRejectedRequest | notifyRejected => exact h.elim
  | onResponse id status extensions =>
    refine ⟨id, h.1, ?_, rfl⟩
    have hended : (s.requests.onResponse id status).1.activeRequests = s.requests.activeRequests.erase id := by
      rw [LocalRequests.onResponse, h.1, if_neg (Bool.not_eq_false _ ▸ rfl), if_pos h.2]
    show (s.requests.onResponse id status).1.activeRequests.contains id = false
    rw [hended, OrdMap.contains_erase]
    simp
  | unsubscribe ticket =>
    refine ⟨ticket, h.2, ?_, rfl⟩
    have hended : (s.requests.unsubscribe ticket).1.activeRequests = s.requests.activeRequests.erase ticket := by
      rw [LocalRequests.unsubscribe, if_neg (Int.not_lt.mpr h.1), h.2, if_neg (by decide)]
    show (s.requests.unsubscribe ticket).1.activeRequests.contains ticket = false
    rw [hended, OrdMap.contains_erase]
    simp
  | cancelAll =>
    have hsome : ¬∀ id, s.requests.activeRequests.contains id = false := by
      intro hnone
      have hempty := (OrdMap.isEmpty_iff _).mpr ((OrdMap.eq_empty_iff _).mpr hnone)
      exact Bool.false_ne_true (h.symm.trans hempty)
    obtain ⟨id, hid⟩ := not_forall.mp hsome
    exact ⟨id, Bool.eq_true_of_not_eq_false hid, rfl, rfl⟩

/-- An operation that ends none leaves the tables alone, but for a new request. -/
theorem active_of_not_endsRequest {s : RequestTable} {o : Op} (h : ¬s.EndsRequest o)
    (hnew : ∀ g rootCid selector extensions, o ≠ .newRequest g rootCid selector extensions) :
    (register s o).active = s.requests.activeRequests ∧
      (register s o).rootCid = s.requests.requestToCid := by
  cases o with
  | newRequest g rootCid selector extensions => exact absurd rfl (hnew g rootCid selector extensions)
  | newRejectedRequest | notifyRejected => exact ⟨rfl, rfl⟩
  | onResponse id status extensions =>
    refine ⟨?_, rfl⟩
    show (s.requests.onResponse id status).1.activeRequests = _
    unfold LocalRequests.onResponse
    by_cases hactive : s.requests.activeRequests.contains id = false
    · rw [if_pos hactive]
    · rw [if_neg hactive, if_neg fun hterminal => h ⟨Bool.eq_true_of_not_eq_false hactive, hterminal⟩]
  | unsubscribe ticket =>
    refine ⟨?_, rfl⟩
    show (s.requests.unsubscribe ticket).1.activeRequests = _
    unfold LocalRequests.unsubscribe
    by_cases hneg : ticket < 0
    · rw [if_pos hneg]
    · rw [if_neg hneg, if_pos]
      by_contra hactive
      exact h ⟨Int.not_lt.mp hneg, Bool.eq_true_of_not_eq_false hactive⟩
  | cancelAll =>
    refine ⟨?_, rfl⟩
    have hempty : s.requests.activeRequests.isEmpty = true := Bool.eq_true_of_not_eq_false h
    exact ((OrdMap.isEmpty_iff _).mp hempty).symm

/-- What the tests ask for. -/
def someRoot : CID := ⟨.v1, Multicodec.dagPb, ⟨HashType.sha256, List.replicate 32 0, by decide⟩⟩

end IpfsLite.Graphsync.RequestTable
