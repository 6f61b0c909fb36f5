import IpfsLite.Graphsync.RegisteredRequests

/-! # The two tables of requests

`request_to_cid_` is filled with `active_requests_`, and nothing is ever taken out of it. So the tables
agree for as long as no request is ended, and not beyond. -/
namespace IpfsLite.Graphsync.RequestTable
set_option autoImplicit false

open Reentrant

/-- The component, and the root CID each request was made for. -/
structure Rooted where
  config : Config RequestTable Call
  /-- history -/
  root : ℕ → Option CID

namespace Rooted

def start : Rooted := ⟨.start initial, fun _ => none⟩

def record (s : Rooted) : Move Op → ℕ → Option CID
  | .invoke (.newRequest _ rootCid _ _) => Function.update s.root s.config.state.made (some rootCid)
  | _ => s.root

def step (s : Rooted) (m : Move Op) : Option Rooted :=
  (RequestTable.step s.config m).map fun c => ⟨c, s.record m⟩

/-- Each active request is answered for with the root CID it was made for. -/
def Answered (s : Rooted) : Prop := ∀ id, s.config.state.requests.activeRequests.contains id = true →
  s.config.state.requests.getRequestRootCid id = s.root (s.config.state.activeCallback id)

/-- The tables have the same keys, and the root CIDs are right. -/
def Agree (s : Rooted) : Prop :=
  (∀ id, (s.config.state.requests.getRequestRootCid id).isSome =
    s.config.state.requests.activeRequests.contains id) ∧ s.Answered

/-- The move ends no request. -/
def Retains (s : Rooted) : Move Op → Prop
  | .invoke o => ¬s.config.state.EndsRequest o
  | .ret => True

instance (s : Rooted) (m : Move Op) : Decidable (s.Retains m) :=
  match m with
  | .invoke o => inferInstanceAs (Decidable (¬s.config.state.EndsRequest o))
  | .ret => inferInstanceAs (Decidable True)

/-! ## What every move keeps -/

structure Inv (s : Rooted) : Prop where
  settled : s.config.Settled registered
  made : ∀ id, s.config.state.requests.activeRequests.contains id = true →
    s.config.state.activeCallback id < s.config.state.made
  answered : s.Answered

theorem inv_start : Inv start where
  settled := Config.settled_start initial
  made _ h := absurd h Bool.false_ne_true
  answered _ h := absurd h Bool.false_ne_true

/-- The invariant, said of the registered requests. -/
structure Sorted (t : Registered) (root : ℕ → Option CID) : Prop where
  made : ∀ id, t.active.contains id = true → t.callback id < t.made
  answered : ∀ id, t.active.contains id = true → t.rootCid.find? id = root (t.callback id)

theorem Inv.sorted {s : Rooted} (h : Inv s) : Sorted (registered s.config.state) s.root :=
  ⟨h.made, h.answered⟩

/-- Requests may be dropped. -/
theorem Sorted.shrink {t u : Registered} {root : ℕ → Option CID} (h : Sorted t root)
    (hactive : ∀ id, u.active.contains id = true → t.active.contains id = true)
    (hroots : u.rootCid = t.rootCid) (hcallback : u.callback = t.callback) (hmade : t.made ≤ u.made) :
    Sorted u root := by
  refine ⟨fun id hid => ?_, fun id hid => ?_⟩
  · rw [hcallback]
    exact Nat.lt_of_lt_of_le (h.made id (hactive id hid)) hmade
  · rw [hroots, hcallback]
    exact h.answered id (hactive id hid)

/-- What is recorded for a request that is to come is of no account. -/
theorem Sorted.record {t : Registered} {root : ℕ → Option CID} (h : Sorted t root) (rootCid : Option CID) :
    Sorted t (Function.update root t.made rootCid) := by
  refine ⟨h.made, fun id hid => ?_⟩
  rw [Function.update_of_ne (Nat.ne_of_lt (h.made id hid))]
  exact h.answered id hid

/-- The tables of a new active request. -/
theorem Sorted.insert {t : Registered} {root : ℕ → Option CID} (h : Sorted t root) (id : RequestId)
    (rootCid : CID) :
    Sorted ⟨t.active.insert id (), t.rootCid.insert id rootCid, Function.update t.callback id t.made, t.made + 1⟩
      (Function.update root t.made (some rootCid)) := by
  have hother {j : RequestId} (hj : (t.active.insert id ()).contains j = true) (hne : j ≠ id) :
      t.active.contains j = true := by
    rw [OrdMap.contains_insert] at hj
    simpa [hne] using hj
  constructor
  · intro j hj
    show Function.update t.callback id t.made j < t.made + 1
    by_cases hid : j = id
    · rw [hid, Function.update_self]
      exact Nat.lt_succ_self _
    · rw [Function.update_of_ne hid]
      exact Nat.lt_succ_of_lt (h.made j (hother hj hid))
  · intro j hj
    show (t.rootCid.insert id rootCid).find? j =
      Function.update root t.made (some rootCid) (Function.update t.callback id t.made j)
    by_cases hid : j = id
    · rw [hid, AssocMap.find?_insert, if_pos rfl, Function.update_self, Function.update_self]
    · rw [AssocMap.find?_insert, if_neg hid, Function.update_of_ne hid,
        Function.update_of_ne (Nat.ne_of_lt (h.made j (hother hj hid)))]
      exact h.answered j (hother hj hid)

theorem Sorted.register_other {s : RequestTable} {root : ℕ → Option CID} (h : Sorted (registered s) root) {o : Op}
    (hnew : ∀ g rootCid selector extensions, o ≠ .newRequest g rootCid selector extensions) :
    Sorted (register s o) root := by
  obtain ⟨hactive, hroots, hcallback, hmade⟩ := register_shrinks s hnew
  exact h.shrink hactive hroots hcallback hmade

theorem sorted_register {s : Rooted} (h : Sorted (registered s.config.state) s.root) (o : Op) :
    Sorted (register s.config.state o) (s.record (.invoke o)) := by
  cases o with
  | newRequest g rootCid selector extensions =>
    rcases register_newRequest s.config.state g rootCid selector extensions with
      ⟨made, hle, heq⟩ | ⟨-, -, heq⟩
    · rw [heq]
      exact (h.record (some rootCid)).shrink (fun _ hid => hid) rfl rfl hle
    · rw [heq]
      exact h.insert _ rootCid
  | _ => exact h.register_other (fun _ _ _ _ h => by cases h)

theorem step_eq {s s' : Rooted} {m : Move Op} (hs : step s m = some s') :
    RequestTable.step s.config m = some s'.config ∧ s'.root = s.record m := by
  obtain ⟨c, hc, rfl⟩ := Option.map_eq_some_iff.mp hs
  exact ⟨hc, rfl⟩

theorem step_inv (s : Rooted) (m : Move Op) (s' : Rooted) (h : Inv s) (hs : step s m = some s') : Inv s' := by
  obtain ⟨hstep, hroot⟩ := step_eq hs
  obtain ⟨hsettled, hview⟩ := step_registered h.settled hstep
  have hsorted : Sorted (registered s'.config.state) s'.root := by
    rw [hview, hroot]
    cases m with
    | invoke o => exact sorted_register h.sorted o
    | ret => exact h.sorted
  exact ⟨hsettled, hsorted.made, hsorted.answered⟩

/-! ## When the tables agree -/

/-- The tables of the registered requests have the same keys. -/
def SameKeys (t : Registered) : Prop := ∀ id, (t.rootCid.find? id).isSome = t.active.contains id

/-- They still have them exactly if no request was ended. -/
theorem sameKeys_register {s : RequestTable} (h : SameKeys (registered s)) (o : Op) :
    SameKeys (register s o) ↔ ¬s.EndsRequest o := by
  constructor
  · rintro hsame hends
    obtain ⟨id, hactive, hended, hroots⟩ := hends.ended
    have hid := hsame id
    rw [hroots, hended] at hid
    exact Bool.false_ne_true (hid.symm.trans ((h id).trans hactive))
  · intro hends
    cases o with
    | newRequest g rootCid selector extensions =>
      rcases register_newRequest s g rootCid selector extensions with ⟨made, -, heq⟩ | ⟨-, -, heq⟩
      · rw [heq]
        exact h
      · rw [heq]
        intro j
        show ((s.requests.requestToCid.insert _ rootCid).find? j).isSome =
          (s.requests.activeRequests.insert _ ()).contains j
        rw [AssocMap.find?_insert, OrdMap.contains_insert]
        by_cases hj : j = (s.requests.nextRequestId g).1
        · simp [hj]
        · simp only [hj, if_false, decide_false, Bool.false_or]
          exact h j
    | _ =>
      obtain ⟨hactive, hroots⟩ := active_of_not_endsRequest hends (fun _ _ _ _ h => by cases h)
      intro j
      rw [hactive, hroots]
      exact h j

theorem agree_iff_sameKeys {s : Rooted} (h : Inv s) : Agree s ↔ SameKeys (registered s.config.state) :=
  and_iff_left h.answered

theorem step_agree_iff (s : Rooted) (m : Move Op) (h : Inv s) (hagree : Agree s) :
    (∀ s' ∈ step s m, Agree s') ↔ s.Retains m := by
  have hkeys := (agree_iff_sameKeys h).mp hagree
  have hnext (s' : Rooted) (hs : step s m = some s') :
      Agree s' ↔ SameKeys (Config.viewAfter registered (fun o t => register t o) s.config.state m) := by
    rw [agree_iff_sameKeys (step_inv s m s' h hs), (step_registered h.settled (step_eq hs).1).2]
  cases m with
  | ret => exact iff_of_true (fun s' hs => (hnext s' hs).mpr hkeys) trivial
  | invoke o =>
    have hsome : step s (.invoke o) = some ⟨_, s.record (.invoke o)⟩ := rfl
    constructor
    · intro hall
      exact (sameKeys_register hkeys o).mp ((hnext _ hsome).mp (hall _ hsome))
    · intro hretains s' hs
      exact (hnext s' hs).mpr ((sameKeys_register hkeys o).mpr hretains)

/-- **Request tables agree** throughout exactly the runs in which no active request is answered for good,
cancelled or stopped; each active request has the root CID it was made for in any run. -/
theorem tables_agree_iff (ms : List (Move Op)) :
    (Runs.EveryState step Agree start ms ↔ Runs.EveryStep step Retains start ms) ∧
      ∀ s, Runs.run step start ms = some s → s.Answered := by
  constructor
  · refine Runs.everyState_iff_everyStep Inv step_inv step_agree_iff inv_start ⟨fun id => rfl, ?_⟩
    exact inv_start.answered
  · intro s hr
    have hinv : Inv s := @Runs.run_invariant _ _ _ (fun _ _ => True) Inv
      (fun t m t' ht _ hs => step_inv t m t' ht hs) _ _ _ inv_start (Runs.everyStep_true _ _) hr
    exact hinv.answered

/-! ## What is left behind -/

/-- A request that is made and told of its progress. -/
def openRequest : List (Move Op) :=
  [.invoke (.newRequest .initial someRoot [] []), .invoke (.onResponse 1 .partialResponse []), .ret]

theorem open_request_agrees : Runs.EveryState step Agree start openRequest ∧
    (Runs.last step start openRequest).Answered :=
  ⟨(tables_agree_iff openRequest).1.mpr (by decide +kernel),
    (tables_agree_iff openRequest).2 _ (Runs.run_last (by decide +kernel))⟩

/-- A request that is made and answered. -/
def answeredRequest : List (Move Op) :=
  [.invoke (.newRequest .initial someRoot [] []), .invoke (.onResponse 1 .fullContent []), .ret]

/-- Its root CID stays. -/
theorem answered_request_left_behind :
    ∃ s, Runs.run step start answeredRequest = some s ∧ s.config.frames = [] ∧
      s.config.state.requests.activeRequests.contains 1 = false ∧
      s.config.state.requests.getRequestRootCid 1 = some someRoot ∧
      ¬Runs.EveryState step Agree start answeredRequest := by
  have hrun : Runs.run step start answeredRequest = some (Runs.last step start answeredRequest) :=
    Runs.run_last (by decide +kernel)
  have hinactive : (Runs.last step start answeredRequest).config.state.requests.activeRequests.contains 1 =
      false := by decide +kernel
  have hleft : (Runs.last step start answeredRequest).config.state.requests.getRequestRootCid 1 =
      some someRoot := by decide +kernel
  refine ⟨_, hrun, by decide +kernel, hinactive, hleft, fun h => ?_⟩
  have hagree : Agree (Runs.last step start answeredRequest) :=
    @Runs.EveryState.run _ _ _ _ _ _ _ [] (by rwa [List.append_nil]) hrun
  have hsame := hagree.1 1
  rw [hinactive, hleft] at hsame
  exact Bool.false_ne_true hsame.symm

end IpfsLite.Graphsync.RequestTable.Rooted
