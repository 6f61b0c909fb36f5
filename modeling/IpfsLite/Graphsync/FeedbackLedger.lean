import IpfsLite.Graphsync.ContextRules

/-! # Every feedback is told of every report

A report is one pass of the loop over `graphsync_feedbacks_`. Whatever the feedbacks do to the
context while they are being called, each entry of the list is called once for each report. -/
namespace IpfsLite.Graphsync.PeerContext
set_option autoImplicit false

open Reentrant

/-- The calls of `onResponse` that one feedback has got, for the ids and statuses looked at. -/
def told (p : RequestId → ResponseStatusCode → Bool) (fb : InstanceId) (calls : List Call) : ℕ :=
  calls.countP fun
    | .onResponse f id status _ => f = fb && p id status
    | _ => false

/-- What it should have got. -/
def due (p : RequestId → ResponseStatusCode → Bool) (fb : InstanceId) (s : PeerContext) : ℕ :=
  s.reported.countP (fun e => p e.1 e.2) * s.graphsyncFeedbacks.count fb

structure LedgerKept (p : RequestId → ResponseStatusCode → Bool) (fb : InstanceId)
    (x y : Trace PeerContext Call) : Prop where
  feedbacks : y.1.graphsyncFeedbacks = x.1.graphsyncFeedbacks
  balance : told p fb y.2 + due p fb x.1 = told p fb x.2 + due p fb y.1

section
variable {p : RequestId → ResponseStatusCode → Bool} {fb : InstanceId} {x : Trace PeerContext Call}

theorem ledger_rely : Rely (LedgerKept p fb) (LedgerKept p fb) fun _ => True where
  refl _ := ⟨rfl, rfl⟩
  trans {x y z} h h' := ⟨h'.feedbacks.trans h.feedbacks, by
    have := h.balance
    have := h'.balance
    omega⟩
  absorb h := h
  stable _ _ := trivial

/-- Programs that keep the ledger balanced. -/
abbrev LedgerKeeps (p : RequestId → ResponseStatusCode → Bool) (fb : InstanceId)
    (x : Trace PeerContext Call) {α : Type} (prog : Action α) : Prop :=
  Keeps (LedgerKept p fb) (LedgerKept p fb) (fun _ _ => True) (fun _ => True) x prog

theorem LedgerKept.of_same {s t : PeerContext} {calls : List Call}
    (hf : t.graphsyncFeedbacks = s.graphsyncFeedbacks) (hr : t.reported = s.reported) :
    LedgerKept p fb (s, calls) (t, calls) := by
  refine ⟨hf, ?_⟩
  simp only [due, hf, hr]

theorem ledger_modify {f : PeerContext → PeerContext}
    (hf : (f x.1).graphsyncFeedbacks = x.1.graphsyncFeedbacks) (hr : (f x.1).reported = x.1.reported) :
    LedgerKeeps p fb x (Prog.modify f) :=
  Keeps.modify fun _ => LedgerKept.of_same hf hr

theorem ledger_modify_bind {α : Type} {f : PeerContext → PeerContext} {prog : Unit → Action α}
    (hf : (f x.1).graphsyncFeedbacks = x.1.graphsyncFeedbacks) (hr : (f x.1).reported = x.1.reported)
    (hp : LedgerKeeps p fb (f x.1, x.2) (prog ())) : LedgerKeeps p fb x (Prog.modify f >>= prog) :=
  Keeps.modify_bind ledger_rely (fun _ => LedgerKept.of_same hf hr) hp

theorem told_append_response (calls : List Call) (f : InstanceId) (id : RequestId)
    (status : ResponseStatusCode) (extensions : List Extension) :
    told p fb (calls ++ [.onResponse f id status extensions]) =
      told p fb calls + if f = fb then (if p id status = true then 1 else 0) else 0 := by
  by_cases hf : f = fb <;> simp [told, List.countP_append, hf]

theorem ledger_quiet {c : Call} (hc : c.isResponse = false) :
    LedgerKept p fb x (x.1, x.2 ++ [c]) := by
  refine ⟨rfl, ?_⟩
  cases c with
  | onResponse f id status extensions => cases hc
  | _ => simp [told, List.countP_append]

/-- The loop pays what the report owes; the calls that are still to come are counted by the rest
of the list. -/
theorem ledger_notify (id : RequestId) (status : ResponseStatusCode) (extensions : List Extension) :
    LedgerKeeps p fb x (notify id status extensions) := by
  intro _
  set b : ℕ := if p id status = true then 1 else 0 with hb
  have hdue : due p fb (noteReport id status x.1) = due p fb x.1 + b * x.1.graphsyncFeedbacks.count fb := by
    simp only [due, noteReport, List.countP_append, List.countP_singleton, ← hb, Nat.add_mul]
  refine Meets.forM
    (I := fun left y => y.1.graphsyncFeedbacks = x.1.graphsyncFeedbacks ∧
      told p fb y.2 + left.count fb * b + due p fb x.1 = told p fb x.2 + due p fb y.1)
    ?_ ?_ x.1.graphsyncFeedbacks (noteReport id status x.1, x.2) ⟨rfl, ?_⟩
  · intro f left y hy
    refine ⟨trivial, fun z hz => ⟨hz.feedbacks.trans hy.1, ?_⟩⟩
    have hbal := hz.balance
    have hcur := hy.2
    rw [told_append_response] at hbal
    rw [List.count_cons] at hcur
    by_cases hf : f = fb
    · simp only [hf, if_true, beq_self_eq_true, Nat.add_mul, Nat.one_mul] at hbal hcur ⊢
      omega
    · simp only [hf, if_false, beq_iff_eq, Nat.add_zero] at hbal hcur ⊢
      omega
  · intro y hy
    refine ⟨hy.1, ?_⟩
    have := hy.2
    simp only [List.count_nil] at this
    omega
  · simp only [hdue, Nat.mul_comm b]
    omega

theorem ledger_logic : Logic (fun x prog => LedgerKeeps p fb x prog) (LedgerKept p fb) fun x t =>
    True → LedgerKept p fb x (t, x.2) := ledger_rely.logic

theorem ledger_call {c : Call} (hc : c.isResponse = false) : LedgerKeeps p fb x (Prog.call c) :=
  Keeps.call ledger_rely fun _ => ⟨trivial, ledger_quiet hc⟩

theorem ledger_closeLocalRequests (status : ResponseStatusCode) :
    LedgerKeeps p fb x (closeLocalRequests status) :=
  keeps_closeLocalRequests ledger_logic (fun _ => .of_same rfl rfl)
    (fun _ id => ledger_notify id status []) fun _ _ => .of_same rfl rfl

theorem ledger_removeStream (stream : StreamPtr) (status : ResponseStatusCode) :
    LedgerKeeps p fb x (removeStream stream status) := by
  have hdrop := Silent.dropRemoteRequests x.1 stream
  exact keeps_removeStream ledger_logic (fun _ _ => .of_same hdrop.feedbacks hdrop.reported) fun _ =>
    ledger_closeLocalRequests status

theorem ledger_close (status : ResponseStatusCode) : LedgerKeeps p fb x (close status) :=
  keeps_close ledger_logic (fun _ _ => .of_same rfl rfl) (fun _ stream => ledger_removeStream stream status)
    (fun _ => ledger_closeLocalRequests status) (fun _ _ => .of_same rfl rfl) fun _ => ledger_call rfl

theorem ledger_needToConnect : LedgerKept p fb x (x.1.needToConnect.1, x.2) := by
  unfold needToConnect
  split
  · exact ledger_rely.refl x
  · split
    · exact LedgerKept.of_same rfl rfl
    · have hcreate := Plain.createMessageQueue x.1
      exact LedgerKept.of_same (hcreate _ _).feedbacks (hcreate _ _).reported

theorem ledger_writeRules : WriteRules (fun x prog => LedgerKeeps p fb x prog) (LedgerKept p fb)
    fun x t => True → LedgerKept p fb x (t, x.2) where
  toLogic := ledger_logic
  plain h _ := .of_same h.feedbacks h.reported
  close _ := ledger_close _

theorem ledger_rules : FullRules (fun x prog => LedgerKeeps p fb x prog) (LedgerKept p fb)
    fun x t => True → LedgerKept p fb x (t, x.2) where
  toWriteRules := ledger_writeRules
  quiet := ledger_call
  removeStream _ _ _ := ledger_removeStream _ _
  silent h _ := .of_same h.feedbacks h.reported
  onResponse response := keeps_onResponse ledger_logic (fun _ => .of_same rfl rfl) fun _ =>
    ledger_notify response.id response.status response.extensions
  finishStreamConfig _ := keeps_finishStreamConfig ledger_writeRules (fun _ _ _ => .of_same rfl rfl)
    fun _ _ _ => .of_same rfl rfl
  needToConnect _ := ledger_needToConnect

/-- No operation unbalances the ledger. -/
theorem ledger_op (o : Op) : LedgerKeeps p fb x (op o) := by
  by_cases ho : o.isRequest = false
  · exact keeps_fullOp ledger_rules ho
  · cases o with
    | enqueueRequest id body =>
      exact keeps_enqueueRequest ledger_writeRules body (fun _ => .of_same rfl rfl)
        (fun _ => ledger_notify id .internalError []) fun _ _ => .of_same rfl rfl
    | cancelRequest id body =>
      exact keeps_cancelRequest ledger_writeRules body (fun _ => .of_same rfl rfl) fun _ _ => .of_same rfl rfl
    | close status => exact ledger_close status
    | _ => exact absurd rfl ho

/-- Between the operations the feedbacks are those the context was created with, and each has been
told of every report, once for each time it is in the list. -/
theorem told_of_run (p : RequestId → ResponseStatusCode → Bool) (fb : InstanceId) {s₀ : PeerContext}
    (hs₀ : s₀.reported = []) {ms : List (Move Op)} {c : Config PeerContext Call}
    (hr : Runs.run step (Config.start s₀) ms = some c) (hidle : c.frames = []) :
    c.state.graphsyncFeedbacks = s₀.graphsyncFeedbacks ∧ told p fb c.calls = due p fb c.state := by
  let V : List Call → Trace PeerContext Call → Prop := fun st x => st = [] →
    x.1.graphsyncFeedbacks = s₀.graphsyncFeedbacks ∧ told p fb x.2 = due p fb x.1
  have hstable : ∀ (st : List Call) (x y : Trace PeerContext Call),
      V st x → LedgerKept p fb x y → V st y := by
    intro st x y hx hxy hst
    have := hxy.balance
    have := (hx hst).2
    exact ⟨hxy.feedbacks.trans (hx hst).1, by omega⟩
  have hstart : V [] (s₀, []) := fun _ => ⟨rfl, by simp [told, due, hs₀]⟩
  have hsound := Sound.run (R := LedgerKept p fb) (V := V)
    ledger_rely.refl (fun _ _ _ => (ledger_rely).trans) hstable (fun c o _ _ hV => ?_) (.start hstart)
    (Runs.everyStep_true _ _) hr
  · exact hsound.valid (by rw [Config.pending, hidle, List.map_nil])
  · have hkeeps : LedgerKeeps p fb (c.state, c.calls) (op o) := ledger_op o
    have hcalls (d : Call) (y : Trace PeerContext Call) (_ : True) : V (d :: c.pending) y := fun hst =>
      absurd hst (List.cons_ne_nil d _)
    exact (hkeeps.weaken hcalls).ends trivial hV hstable

end
end IpfsLite.Graphsync.PeerContext
