import IpfsLite.Foundations.Upfront
import IpfsLite.Graphsync.FinalWord

/-! # Subscriptions

A `Subscription` holds the ticket of a request and passes it to `unsubscribe` when it is dropped. Tickets
are given out again: the ids of rejected requests start at -1 after every notification, those of the others
when the counter has gone round. A request that is made is accounted for as long as no `Subscription` is
dropped whose ticket it was given as well. -/
namespace IpfsLite.Graphsync.RequestTable
set_option autoImplicit false

open Reentrant EventLog

/-! ## What becomes of a request -/

def isLast (r : ℕ) : RequestEvent → Bool
  | .progress r' status => r' = r && isTerminal status
  | _ => false

/-- The request has got its final word. -/
def finished (s : RequestTable) (r : ℕ) : Bool := s.log.any (isLast r)

/-- It is in one of the tables, or in a map that was taken out, or it is finished. -/
def Accounted (s : RequestTable) (r : ℕ) : Prop := r ∈ s.kept ∨ s.finished r = true

/-- It is to be told that it is rejected, or it was. -/
def Promised (s : RequestTable) (r : ℕ) : Prop :=
  r ∈ s.rejectedCallbacks ∨ r ∈ s.detached ∨ .progress r .rejectedLocally ∈ s.log

/-- Nothing is lost on the way from `s` to `t`, nothing comes back, and a notification is scheduled when
there is a rejected request. -/
structure Accounts (s t : RequestTable) : Prop where
  log : s.log <+: t.log
  made : s.made ≤ t.made
  accounted : ∀ r < t.made, (r < s.made → s.Accounted r) → t.Accounted r
  promised : ∀ r, s.Promised r → t.Promised r
  active : ∀ r ∈ t.activeCallbacks, r < s.made → r ∈ s.activeCallbacks
  rejected : ∀ r ∈ t.rejectedCallbacks, r < s.made → r ∈ s.rejectedCallbacks
  scheduled : (s.rejectedCallbacks ≠ [] → 0 < s.scheduled) → t.rejectedCallbacks ≠ [] → 0 < t.scheduled

section
variable {s t u : RequestTable} {r : ℕ}

theorem finished_iff : s.finished r = true ↔ ∃ status, isTerminal status = true ∧ .progress r status ∈ s.log := by
  unfold finished
  rw [List.any_eq_true]
  constructor
  · rintro ⟨e, he, hlast⟩
    cases e with
    | progress r' status =>
      obtain ⟨hr, hterminal⟩ := Bool.and_eq_true_iff.mp hlast
      exact ⟨status, hterminal, of_decide_eq_true hr ▸ he⟩
    | _ => exact absurd hlast Bool.false_ne_true
  · rintro ⟨status, hterminal, hmem⟩
    exact ⟨_, hmem, by simp [isLast, hterminal]⟩

theorem finished_mono (h : s.log <+: t.log) (hfin : s.finished r = true) : t.finished r = true := by
  obtain ⟨status, hterminal, hmem⟩ := (finished_iff).mp hfin
  exact (finished_iff).mpr ⟨status, hterminal, h.subset hmem⟩

theorem finished_note (status : ResponseStatusCode) (h : isTerminal status = true) :
    (note (.progress r status) s).finished r = true :=
  (finished_iff).mpr ⟨status, h, List.mem_append_right _ (List.mem_singleton.mpr rfl)⟩

theorem mem_kept : r ∈ s.kept ↔ r ∈ s.activeCallbacks ∨ r ∈ s.rejectedCallbacks ∨ r ∈ s.detached := by
  rw [kept, List.mem_append, List.mem_append, or_assoc]

theorem Accounts.refl (s : RequestTable) : Accounts s s where
  log := List.prefix_refl _
  made := le_rfl
  accounted _ hlt h := h hlt
  promised _ h := h
  active _ h _ := h
  rejected _ h _ := h
  scheduled h := h

theorem Accounts.trans (h : Accounts s t) (h' : Accounts t u) : Accounts s u where
  log := h.log.trans h'.log
  made := h.made.trans h'.made
  accounted r hlt hr := h'.accounted r hlt fun hlt' => h.accounted r hlt' hr
  promised r hr := h'.promised r (h.promised r hr)
  active r hr hlt := h.active r (h'.active r hr (Nat.lt_of_lt_of_le hlt h.made)) hlt
  rejected r hr hlt := h.rejected r (h'.rejected r hr (Nat.lt_of_lt_of_le hlt h.made)) hlt
  scheduled hs := h'.scheduled (h.scheduled hs)

theorem accounts_trans : ∀ x y z, Accounts x y → Accounts y z → Accounts x z := fun _ _ _ => Accounts.trans

/-- A move that makes no request. -/
theorem Accounts.same (hlog : s.log <+: t.log) (hmade : t.made = s.made)
    (hkept : ∀ r ∈ s.kept, t.Accounted r)
    (hpromised : ∀ r, r ∈ s.rejectedCallbacks ∨ r ∈ s.detached → t.Promised r)
    (hactive : t.activeCallbacks ⊆ s.activeCallbacks) (hrejected : t.rejectedCallbacks ⊆ s.rejectedCallbacks)
    (hscheduled : t.rejectedCallbacks ≠ [] → s.scheduled ≤ t.scheduled) : Accounts s t where
  log := hlog
  made := hmade.ge
  accounted r hlt hr := by
    rcases hr (hmade ▸ hlt) with hr | hfin
    · exact hkept r hr
    · exact .inr (finished_mono hlog hfin)
  promised r hr := by
    rcases hr with hr | hr | htold
    · exact hpromised r (.inl hr)
    · exact hpromised r (.inr hr)
    · exact .inr (.inr (hlog.subset htold))
  active r hr _ := hactive hr
  rejected r hr _ := hrejected hr
  scheduled hs ht := Nat.lt_of_lt_of_le (hs fun hnil => ht (List.subset_nil.mp (hnil ▸ hrejected))) (hscheduled ht)

/-! ## The parts of the operations -/

theorem accounts_note (e : RequestEvent) (s : RequestTable) : Accounts s (note e s) := by
  refine .same (List.prefix_append _ _) rfl (fun _ hr => .inl hr) (fun r hr => ?_) (List.Subset.refl _)
    (List.Subset.refl _) fun _ => le_rfl
  exact hr.imp_right .inl

/-- The next callback of a map that was taken out. -/
theorem accounts_cancelNext (r : ℕ) (s : RequestTable) :
    Accounts s (note (.progress r .rejectedLocally) { s with detached := s.detached.erase r }) := by
  have htold : (note (.progress r .rejectedLocally) { s with detached := s.detached.erase r }).finished r = true :=
    finished_note .rejectedLocally rfl
  refine .same (List.prefix_append _ _) rfl (fun r' hr' => ?_) (fun r' hr' => ?_) (List.Subset.refl _)
    (List.Subset.refl _) fun _ => le_rfl
  · by_cases hr : r' = r
    · exact .inr (hr ▸ htold)
    · refine .inl ((mem_kept).mpr ?_)
      exact ((mem_kept).mp hr').imp_right fun h => h.imp_right fun hmem => (List.mem_erase_of_ne hr).mpr hmem
  · by_cases hr : r' = r
    · exact .inr (.inr (hr ▸ List.mem_append_right _ (List.mem_singleton.mpr rfl)))
    · exact hr'.imp_right fun hmem => .inl ((List.mem_erase_of_ne hr).mpr hmem)

theorem accounts_detachActive (s : RequestTable) :
    Accounts s (s.detach s.activeCallbacks { s.requests with activeRequests := .empty }) := by
  refine .same (List.prefix_refl _) rfl (fun r hr => .inl ((mem_kept).mpr ?_)) (fun r hr => ?_) (List.nil_subset _)
    (List.Subset.refl _) fun _ => le_rfl
  · rcases (mem_kept).mp hr with hr | hr | hr
    · exact .inr (.inr (List.mem_append_left _ hr))
    · exact .inr (.inl hr)
    · exact .inr (.inr (List.mem_append_right _ hr))
  · exact hr.imp_right fun hmem => .inl (List.mem_append_right _ hmem)

/-- Also when it is the notification that takes them out. -/
theorem accounts_detachRejected (s : RequestTable) (scheduled : ℕ) :
    Accounts s (({ s with scheduled := scheduled } : RequestTable).detach s.rejectedCallbacks
      { s.requests with rejectedRequests := .empty }) := by
  refine .same (List.prefix_refl _) rfl (fun r hr => .inl ((mem_kept).mpr ?_)) (fun r hr => ?_)
    (List.Subset.refl _) (List.nil_subset _) fun h => absurd rfl h
  · rcases (mem_kept).mp hr with hr | hr | hr
    · exact .inl hr
    · exact .inr (.inr (List.mem_append_left _ hr))
    · exact .inr (.inr (List.mem_append_right _ hr))
  · refine .inr (.inl ?_)
    rcases hr with hr | hr
    · exact List.mem_append_left _ hr
    · exact List.mem_append_right _ hr

theorem accounts_resetRejectedIds (s : RequestTable) : Accounts s (resetRejectedIds s) := by
  unfold resetRejectedIds
  split
  · exact .same (List.prefix_refl _) rfl (fun _ hr => .inl hr) (fun r hr => hr.imp_right .inl)
      (List.Subset.refl _) (List.Subset.refl _) fun _ => le_rfl
  · exact .refl s

theorem accounts_onResponse (s : RequestTable) {id : RequestId} {status : ResponseStatusCode}
    (h : (s.requests.onResponse id status).2 = true) :
    Accounts s (note (.progress (s.activeCallback id) status) (s.setRequests (s.requests.onResponse id status).1)) := by
  unfold LocalRequests.onResponse at h ⊢
  by_cases hactive : s.requests.activeRequests.contains id = false
  · rw [if_pos hactive] at h
    cases h
  simp only [if_neg hactive]
  by_cases hterminal : isTerminal status = true
  · simp only [if_pos hterminal]
    refine .same (List.prefix_append _ _) rfl (fun r hr => ?_) (fun r hr => hr.imp_right .inl) ?_
      (List.Subset.refl _) fun _ => le_rfl
    · rcases (mem_kept).mp hr with hr | hr
      · obtain ⟨j, hj, rfl⟩ := List.mem_map.mp hr
        by_cases hid : j = id
        · exact .inr (hid ▸ finished_note status hterminal)
        · refine .inl ((mem_kept).mpr (.inl (List.mem_map_of_mem ?_)))
          rw [OrdMap.mem_keys_iff_contains] at hj ⊢
          show (s.requests.activeRequests.erase id).contains j = true
          rw [OrdMap.contains_erase]
          simp [hid, hj]
      · exact .inl ((mem_kept).mpr (.inr hr))
    · exact List.map_subset _ (OrdMap.keys_erase_sublist s.requests.activeRequests id).subset
  · simp only [if_neg hterminal]
    exact accounts_note _ s

/-- A move that makes a request and keeps it. -/
theorem Accounts.add (hlog : s.log <+: t.log) (hmade : t.made = s.made + 1)
    (hkept : ∀ r, r = s.made ∨ r ∈ s.kept → r ∈ t.kept)
    (hpromised : ∀ r, r ∈ s.rejectedCallbacks ∨ r ∈ s.detached → t.Promised r)
    (hactive : t.activeCallbacks ⊆ s.made :: s.activeCallbacks)
    (hrejected : t.rejectedCallbacks ⊆ s.made :: s.rejectedCallbacks)
    (hscheduled : 0 < t.scheduled ∨ t.scheduled = s.scheduled ∧ t.rejectedCallbacks = s.rejectedCallbacks) :
    Accounts s t where
  log := hlog
  made := hmade ▸ Nat.le_succ _
  accounted r hlt hr := by
    by_cases hnew : r = s.made
    · exact .inl (hkept r (.inl hnew))
    · rcases hr (by omega) with hr | hfin
      · exact .inl (hkept r (.inr hr))
      · exact .inr (finished_mono hlog hfin)
  promised r hr := by
    rcases hr with hr | hr | htold
    · exact hpromised r (.inl hr)
    · exact hpromised r (.inr hr)
    · exact .inr (.inr (hlog.subset htold))
  active r hr hlt := (List.mem_cons.mp (hactive hr)).resolve_left (Nat.ne_of_lt hlt)
  rejected r hr hlt := (List.mem_cons.mp (hrejected hr)).resolve_left (Nat.ne_of_lt hlt)
  scheduled hs ht := by
    rcases hscheduled with hpos | ⟨hsame, hcallbacks⟩
    · exact hpos
    · exact hsame ▸ hs (hcallbacks ▸ ht)

theorem accounts_keepActive {requests : LocalRequests} {id : RequestId}
    (hfresh : s.requests.activeRequests.contains id = false)
    (hactive : requests.activeRequests = s.requests.activeRequests.insert id ())
    (hrejected : requests.rejectedRequests = s.requests.rejectedRequests) :
    Accounts s (s.keepActive requests id) := by
  obtain ⟨hperm, hrest⟩ := keepActive_callbacks hfresh hactive hrejected
  refine .add (List.prefix_append _ _) rfl (fun r hr => ?_) (fun r hr => ?_) hperm.subset ?_
    (.inr ⟨rfl, hrest⟩)
  · rw [mem_kept, hrest, hperm.mem_iff, List.mem_cons]
    exact hr.elim (fun h => .inl (.inl h)) fun h => ((mem_kept).mp h).imp_left .inr
  · unfold Promised
    rw [hrest]
    exact hr.imp_right .inl
  · rw [hrest]
    exact List.subset_cons_self _ _

theorem accounts_keepRejected {quiet : Prop} (h : Inv quiet s) {requests : LocalRequests}
    (hactive : requests.activeRequests = s.requests.activeRequests)
    (hrejected : requests.rejectedRequests =
      s.requests.rejectedRequests.insert (s.requests.currentRejectedRequestId - 1) ())
    (hids : requests.currentRejectedRequestId = s.requests.currentRejectedRequestId - 1) :
    Accounts s (s.keepRejected requests) := by
  obtain ⟨hperm, hrest⟩ := keepRejected_callbacks h hactive hrejected hids
  refine .add (List.prefix_append _ _) rfl (fun r hr => ?_) (fun r hr => ?_) ?_ hperm.subset
    (.inl (Nat.succ_pos _))
  · rw [mem_kept, hrest, hperm.mem_iff, List.mem_cons]
    rcases hr with hr | hr
    · exact .inr (.inl (.inl hr))
    · exact ((mem_kept).mp hr).imp_right fun h => h.imp_left .inr
  · unfold Promised
    rw [hperm.mem_iff, List.mem_cons]
    exact hr.elim (fun h => .inl (.inr h)) fun h => .inr (.inl h)
  · rw [hrest]
    exact List.subset_cons_self _ _

theorem accounts_addRequest {quiet : Prop} (h : Inv quiet s) (g : IdGenerator) (rootCid : CID)
    (selector : Bytes) (extensions : List Extension) :
    Accounts s (addRequest g rootCid selector extensions s) := by
  unfold addRequest
  rcases LocalRequests.newRequest_cases s.requests g rootCid selector extensions rfl rfl with
    ⟨hnone, hl, -⟩ | ⟨hsome, hactive, hrejected, hids, -⟩ |
      ⟨id, body, hsome, hbody, hfresh, hactive, hrejected, -⟩
  · simp only [hnone, hl]
    exact .same (List.prefix_refl _) rfl (fun _ hr => .inl hr) (fun r hr => hr.imp_right .inl)
      (List.Subset.refl _) (List.Subset.refl _) fun _ => le_rfl
  · simp only [hsome, if_true]
    exact accounts_keepRejected h hactive hrejected hids
  · simp only [hsome, if_neg hbody]
    exact accounts_keepActive hfresh hactive hrejected

end

/-! ## The operations -/

theorem tell_parts (r : ℕ) (status : ResponseStatusCode) (extensions : List Extension) (s : RequestTable) :
    Parts Accounts (note (.progress r status) s) (tell r status extensions s) :=
  Parts.call Accounts.refl (.progress r status extensions) (note (.progress r status) s)

theorem cancelLoop_parts (callbacks : List ℕ) (s : RequestTable) :
    Parts Accounts s (cancelLoop callbacks s) := by
  refine Parts.forM Accounts.refl accounts_trans (fun r t => ?_) callbacks s
  exact (tell_parts r .rejectedLocally [] { t with detached := t.detached.erase r }).after
    accounts_trans (accounts_cancelNext r t)

theorem cancelRejected_parts (s : RequestTable) : Parts Accounts s (cancelRejected s) :=
  (cancelLoop_parts s.rejectedCallbacks _).after accounts_trans
    (accounts_detachRejected s s.scheduled)

/-- Every operation but `unsubscribe` accounts for the requests, at each of its calls. -/
theorem op_parts {quiet : Prop} {s : RequestTable} (h : Inv quiet s) {o : Op}
    (hkeeps : ∀ ticket, o ≠ .unsubscribe ticket) : Parts Accounts s (op o s) := by
  cases o with
  | unsubscribe ticket => exact absurd rfl (hkeeps ticket)
  | newRequest g rootCid selector extensions => exact accounts_addRequest h g rootCid selector extensions
  | newRejectedRequest => exact accounts_keepRejected h rfl rfl rfl
  | onResponse id status extensions =>
    show Parts Accounts s (Prog.when _ _ _)
    unfold Prog.when
    by_cases hanswered : (s.requests.onResponse id status).2 = true
    · rw [if_pos hanswered]
      exact (tell_parts _ status extensions _).after accounts_trans (accounts_onResponse s hanswered)
    · rw [if_neg hanswered, onResponse_ignored hanswered]
      exact Accounts.refl s
  | notifyRejected =>
    show Parts Accounts s (Prog.when _ _ _)
    unfold Prog.when
    by_cases hscheduled : 0 < s.scheduled
    · rw [if_pos hscheduled]
      have hloop : Parts Accounts s (cancelRejected { s with scheduled := s.scheduled - 1 }) :=
        (cancelLoop_parts s.rejectedCallbacks _).after accounts_trans (accounts_detachRejected s (s.scheduled - 1))
      have hreset (t : RequestTable) :
          Parts Accounts t (Prog.modify resetRejectedIds t : Res RequestTable Call Unit) :=
        accounts_resetRejectedIds t
      exact hloop.bind accounts_trans fun _ t => hreset t
    · rw [if_neg hscheduled]
      exact Accounts.refl s
  | cancelAll =>
    have hloop : Parts Accounts s (cancelActive s) :=
      (cancelLoop_parts s.activeCallbacks _).after accounts_trans (accounts_detachActive s)
    exact hloop.bind accounts_trans fun _ t => cancelRejected_parts t

/-! ## Cancelling -/

/-- Up to the call of `cancel_fn_`. -/
def cancelled (s : RequestTable) (ticket : RequestId) : RequestTable :=
  note (.unsubscribed ticket) (s.setRequests (s.requests.unsubscribe ticket).1)

section
variable {s : RequestTable} {ticket : RequestId}

theorem cancelled_active (j : RequestId) : (s.cancelled ticket).requests.activeRequests.contains j = true ↔
    s.requests.activeRequests.contains j = true ∧ ¬(0 ≤ ticket ∧ j = ticket) := by
  show (s.requests.unsubscribe ticket).1.activeRequests.contains j = true ↔ _
  unfold LocalRequests.unsubscribe
  by_cases hneg : ticket < 0
  · simp [hneg]
  · have hpos : 0 ≤ ticket := Int.not_lt.mp hneg
    by_cases hnone : s.requests.activeRequests.contains ticket = false
    · rw [if_neg hneg, if_pos hnone]
      refine ⟨fun hj => ⟨hj, ?_⟩, And.left⟩
      rintro ⟨-, rfl⟩
      exact Bool.false_ne_true (hnone.symm.trans hj)
    · rw [if_neg hneg, if_neg hnone]
      simp [OrdMap.contains_erase, hpos, and_comm]

theorem cancelled_rejected (j : RequestId) : (s.cancelled ticket).requests.rejectedRequests.contains j = true ↔
    s.requests.rejectedRequests.contains j = true ∧ ¬(ticket < 0 ∧ j = ticket) := by
  show (s.requests.unsubscribe ticket).1.rejectedRequests.contains j = true ↔ _
  unfold LocalRequests.unsubscribe
  by_cases hneg : ticket < 0
  · simp [hneg, OrdMap.contains_erase, and_comm]
  · rw [if_neg hneg]
    split <;> simp [hneg]

/-- A request stays in its table if the ticket is not the one it was given, or is for the other table. -/
theorem mem_active_cancelled (h : Inv False s) {r : ℕ} {own : RequestId} (hown : .made r own ∈ s.log)
    (hr : r ∈ s.activeCallbacks) :
    r ∈ (s.cancelled ticket).activeCallbacks ↔ ¬(0 ≤ ticket ∧ own = ticket) := by
  have hkey (j : RequestId) (hj : s.requests.activeRequests.contains j = true) (hjr : s.activeCallback j = r) :
      j = own := h.logged.ticket_unique r _ _ (hjr ▸ h.activeTicket j hj) hown
  constructor
  · intro hmem
    obtain ⟨j, hj, hjr⟩ := List.mem_map.mp hmem
    obtain ⟨hj, hnot⟩ := (cancelled_active j).mp ((OrdMap.mem_keys_iff_contains _ _).mp hj)
    exact hkey j hj hjr ▸ hnot
  · intro hnot
    obtain ⟨j, hj, hjr⟩ := List.mem_map.mp hr
    have hj' := (OrdMap.mem_keys_iff_contains _ _).mp hj
    refine List.mem_map.mpr ⟨j, (OrdMap.mem_keys_iff_contains _ _).mpr ?_, hjr⟩
    exact (cancelled_active j).mpr ⟨hj', hkey j hj' hjr ▸ hnot⟩

theorem mem_rejected_cancelled (h : Inv False s) {r : ℕ} {own : RequestId} (hown : .made r own ∈ s.log)
    (hr : r ∈ s.rejectedCallbacks) :
    r ∈ (s.cancelled ticket).rejectedCallbacks ↔ ¬(ticket < 0 ∧ own = ticket) := by
  have hkey (j : RequestId) (hj : s.requests.rejectedRequests.contains j = true)
      (hjr : s.rejectedCallback j = r) : j = own :=
    h.logged.ticket_unique r _ _ (hjr ▸ h.rejectedTicket j hj) hown
  constructor
  · intro hmem
    obtain ⟨j, hj, hjr⟩ := List.mem_map.mp hmem
    obtain ⟨hj, hnot⟩ := (cancelled_rejected j).mp ((OrdMap.mem_keys_iff_contains _ _).mp hj)
    exact hkey j hj hjr ▸ hnot
  · intro hnot
    obtain ⟨j, hj, hjr⟩ := List.mem_map.mp hr
    have hj' := (OrdMap.mem_keys_iff_contains _ _).mp hj
    refine List.mem_map.mpr ⟨j, (OrdMap.mem_keys_iff_contains _ _).mpr ?_, hjr⟩
    exact (cancelled_rejected j).mpr ⟨hj', hkey j hj' hjr ▸ hnot⟩

theorem cancelled_active_subset : (s.cancelled ticket).activeCallbacks ⊆ s.activeCallbacks := by
  intro r hr
  obtain ⟨j, hj, hjr⟩ := List.mem_map.mp hr
  have hj' := ((cancelled_active j).mp ((OrdMap.mem_keys_iff_contains _ _).mp hj)).1
  exact List.mem_map.mpr ⟨j, (OrdMap.mem_keys_iff_contains _ _).mpr hj', hjr⟩

theorem cancelled_rejected_subset : (s.cancelled ticket).rejectedCallbacks ⊆ s.rejectedCallbacks := by
  intro r hr
  obtain ⟨j, hj, hjr⟩ := List.mem_map.mp hr
  have hj' := ((cancelled_rejected j).mp ((OrdMap.mem_keys_iff_contains _ _).mp hj)).1
  exact List.mem_map.mpr ⟨j, (OrdMap.mem_keys_iff_contains _ _).mpr hj', hjr⟩

end

/-- The ticket the request was given. -/
def ticketOf (s : RequestTable) (r : ℕ) : Option RequestId :=
  s.log.findSome? fun e => match e with
    | .made r' ticket => if r' = r then some ticket else none
    | _ => none

theorem ticketOf_iff {quiet : Prop} {s : RequestTable} (h : Inv quiet s) {r : ℕ} {ticket : RequestId} :
    s.ticketOf r = some ticket ↔ .made r ticket ∈ s.log := by
  have hmem {t : RequestId} (ht : s.ticketOf r = some t) : .made r t ∈ s.log := by
    obtain ⟨e, he, hsome⟩ := List.exists_of_findSome?_eq_some ht
    cases e with
    | made r' t' =>
      simp only [Option.ite_none_right_eq_some, Option.some.injEq] at hsome
      exact hsome.1 ▸ hsome.2 ▸ he
    | _ => cases hsome
  refine ⟨hmem, fun hmade => ?_⟩
  cases hfind : s.ticketOf r with
  | none =>
    have hnone := List.findSome?_eq_none_iff.mp hfind _ hmade
    simp at hnone
  | some t => rw [h.logged.ticket_unique r t ticket (hmem hfind) hmade]

/-! ## Subscriptions that are held -/

/-- The component, and the requests whose `Subscription` has been dropped. -/
structure Held where
  config : Config RequestTable Call
  dropped : List ℕ

namespace Held

/-- What is done with the component: it is used, or the `Subscription` of a request is dropped. -/
inductive Deed
  | use (m : Move Op)
  | drop (r : ℕ)

def start : Held := ⟨.start initial, []⟩

/-- Only a `Subscription` calls `unsubscribe`, and it does so once. -/
def step (s : Held) : Deed → Option Held
  | .use (.invoke (.unsubscribe _)) => none
  | .use m => (RequestTable.step s.config m).map fun c => ⟨c, s.dropped⟩
  | .drop r =>
    if r ∈ s.dropped then none
    else (s.config.state.ticketOf r).bind fun ticket =>
      (RequestTable.step s.config (.invoke (.unsubscribe ticket))).map fun c => ⟨c, r :: s.dropped⟩

/-- The callbacks in the tables. -/
def callbacks (s : Held) : List ℕ := s.config.state.activeCallbacks ++ s.config.state.rejectedCallbacks

/-- A `Subscription` that is dropped takes no callback with it but its own. -/
def Own (s : Held) : Deed → Prop
  | .drop r => ∀ s' ∈ step s (.drop r), ∀ r' ≠ r, r' ∈ s.callbacks → r' ∈ s'.callbacks
  | .use _ => True

/-- Every other request that was given the ticket is finished, or its own `Subscription` was dropped, or
its callback is in the map of a notification or of a `cancelAll` under way; or the ticket is negative, so
one of a rejected request, and the other request is active all the same. -/
def Clear (s : Held) : Deed → Prop
  | .drop r => r ∉ s.dropped → ∀ ticket ∈ s.config.state.ticketOf r, ∀ r' < s.config.state.made, r' ≠ r →
      s.config.state.ticketOf r' = some ticket →
        s.config.state.finished r' = true ∨ r' ∈ s.dropped ∨ r' ∈ s.config.state.detached ∨
          (ticket < 0 ∧ r' ∈ s.config.state.activeCallbacks)
  | .use _ => True

instance (s : Held) (d : Deed) : Decidable (s.Clear d) := by
  cases d <;> unfold Clear <;> infer_instance

/-! ## Every request is accounted for -/

structure Inv (s : Held) : Prop where
  reached : ∃ ms, Runs.run RequestTable.step (Config.start initial) ms = some s.config
  parted : s.config.Parted Accounts
  accounted : ∀ r < s.config.state.made, s.config.state.Accounted r ∨ r ∈ s.dropped
  gone : ∀ r ∈ s.dropped, ∃ ticket, .made r ticket ∈ s.config.state.log ∧
    (0 ≤ ticket → r ∉ s.config.state.activeCallbacks) ∧ (ticket < 0 → r ∉ s.config.state.rejectedCallbacks)
  scheduled : s.config.state.rejectedCallbacks ≠ [] → 0 < s.config.state.scheduled

theorem inv_start : Inv start where
  reached := ⟨[], rfl⟩
  parted := Config.parted_start Accounts initial
  accounted _ h := absurd h (Nat.not_lt_zero _)
  gone _ h := absurd h List.not_mem_nil
  scheduled h := absurd rfl h

theorem Inv.table {s : Held} (h : Inv s) : RequestTable.Inv False s.config.state := by
  obtain ⟨ms, hms⟩ := h.reached
  exact inv_run False.elim hms

theorem Inv.reached_step {s : Held} (h : Inv s) {m : Move Op} {c : Config RequestTable Call}
    (hs : RequestTable.step s.config m = some c) :
    ∃ ms, Runs.run RequestTable.step (Config.start initial) ms = some c := by
  obtain ⟨ms, hms⟩ := h.reached
  refine ⟨ms ++ [m], ?_⟩
  rw [Runs.run_append, hms]
  exact Runs.run_step hs []

theorem step_use {s s' : Held} {m : Move Op} (hs : step s (.use m) = some s') :
    RequestTable.step s.config m = some s'.config ∧ s'.dropped = s.dropped ∧
      ∀ ticket, m ≠ .invoke (.unsubscribe ticket) := by
  have hmap (h : (RequestTable.step s.config m).map (fun c => (⟨c, s.dropped⟩ : Held)) = some s') :
      RequestTable.step s.config m = some s'.config ∧ s'.dropped = s.dropped := by
    obtain ⟨c, hc, rfl⟩ := Option.map_eq_some_iff.mp h
    exact ⟨hc, rfl⟩
  cases m with
  | ret => exact ⟨(hmap hs).1, (hmap hs).2, fun _ => nofun⟩
  | invoke o =>
    cases o with
    | unsubscribe ticket => cases hs
    | _ => exact ⟨(hmap hs).1, (hmap hs).2, fun _ => nofun⟩

/-- Using the component accounts for the requests. -/
theorem Inv.use {s s' : Held} {m : Move Op} (h : Inv s) (hs : step s (.use m) = some s') :
    s'.config.Parted Accounts ∧ Accounts s.config.state s'.config.state := by
  obtain ⟨hstep, -, hkeeps⟩ := step_use hs
  cases m with
  | ret => exact Config.ret_parted h.parted hstep
  | invoke o =>
    have hop : Parts Accounts s.config.state (op o s.config.state) :=
      op_parts h.table fun ticket ho => hkeeps ticket (ho ▸ rfl)
    simp only [RequestTable.step, Config.step, enabled, if_true, Option.some.injEq] at hstep
    exact hstep ▸ Config.settle_parted h.parted hop

/-- What dropping a `Subscription` does. -/
theorem step_drop {s s' : Held} {r : ℕ} (h : Inv s) (hs : step s (.drop r) = some s') :
    r ∉ s.dropped ∧ s'.dropped = r :: s.dropped ∧ ∃ ticket, s.config.state.ticketOf r = some ticket ∧
      RequestTable.step s.config (.invoke (.unsubscribe ticket)) = some s'.config ∧
      s'.config.Parted Accounts ∧ s'.config.state = s.config.state.cancelled ticket := by
  simp only [step] at hs
  by_cases hdropped : r ∈ s.dropped
  · rw [if_pos hdropped] at hs
    cases hs
  · rw [if_neg hdropped] at hs
    obtain ⟨ticket, hticket, hmap⟩ := Option.bind_eq_some_iff.mp hs
    obtain ⟨c, hc, rfl⟩ := Option.map_eq_some_iff.mp hmap
    refine ⟨hdropped, rfl, ticket, hticket, hc, ?_⟩
    simp only [RequestTable.step, Config.step, enabled, if_true, Option.some.injEq] at hc
    subst hc
    show Config.Parted _ (Config.settle _ _ (unsubscribe ticket s.config.state)) ∧
      (Config.settle _ _ (unsubscribe ticket s.config.state)).state = _
    cases hcancel : (s.config.state.requests.unsubscribe ticket).2 with
    | none =>
      rw [unsubscribe_none hcancel]
      exact ⟨h.parted, rfl⟩
    | some cancel =>
      rw [unsubscribe_some hcancel]
      exact ⟨List.forall_mem_cons.mpr ⟨fun t => Accounts.refl t, h.parted⟩, rfl⟩

theorem step_drop_exists {s : Held} {r : ℕ} {ticket : RequestId} (hdropped : r ∉ s.dropped)
    (hticket : s.config.state.ticketOf r = some ticket) : ∃ s', step s (.drop r) = some s' := by
  simp only [step, if_neg hdropped, hticket, Option.bind_some]
  exact ⟨_, rfl⟩

/-! ## Whose callback goes -/

/-- Of the requests in the tables those stay that were not given the ticket, or are not in its table. -/
theorem mem_callbacks_cancelled {s : Held} (h : Inv s) {ticket own : RequestId} {r : ℕ}
    (hown : s.config.state.ticketOf r = some own) (hr : r ∈ s.callbacks) :
    r ∈ (s.config.state.cancelled ticket).activeCallbacks ++ (s.config.state.cancelled ticket).rejectedCallbacks ↔
      own ≠ ticket ∨ (ticket < 0 ∧ r ∈ s.config.state.activeCallbacks) := by
  have hmade := (ticketOf_iff h.table).mp hown
  have hnodup := (List.nodup_append.mp h.table.nodup).1
  rw [List.mem_append]
  rcases List.mem_append.mp hr with hactive | hrejected
  · have hnot : r ∉ s.config.state.rejectedCallbacks := fun hmem => (List.nodup_append.mp hnodup).2.2 r hactive r hmem rfl
    rw [mem_active_cancelled h.table hmade hactive]
    constructor
    · rintro (hstays | hmem)
      · by_cases heq : own = ticket
        · exact .inr ⟨Int.not_le.mp fun hpos => hstays ⟨hpos, heq⟩, hactive⟩
        · exact .inl heq
      · exact absurd (cancelled_rejected_subset hmem) hnot
    · rintro (hne | ⟨hneg, -⟩)
      · exact .inl fun hsame => hne hsame.2
      · exact .inl fun hsame => Int.not_le.mpr hneg hsame.1
  · have hnot : r ∉ s.config.state.activeCallbacks := fun hmem => (List.nodup_append.mp hnodup).2.2 r hmem r hrejected rfl
    rw [mem_rejected_cancelled h.table hmade hrejected]
    obtain ⟨j, hj, hjr⟩ := List.mem_map.mp hrejected
    have hj' := (OrdMap.mem_keys_iff_contains _ _).mp hj
    have hneg : own < 0 := by
      have hticket := h.table.rejectedTicket j hj'
      rw [hjr] at hticket
      exact h.table.logged.ticket_unique r _ _ hticket hmade ▸ (h.table.rejectedRange j hj').2
    constructor
    · rintro (hmem | hstays)
      · exact absurd (cancelled_active_subset hmem) hnot
      · exact .inl fun heq => hstays ⟨heq ▸ hneg, heq⟩
    · rintro (hne | ⟨-, hmem⟩)
      · exact .inr fun hsame => hne hsame.2
      · exact absurd hmem hnot

theorem Inv.ticket {s : Held} (h : Inv s) {r : ℕ} (hr : r ∈ s.callbacks) :
    r < s.config.state.made ∧ ∃ own, s.config.state.ticketOf r = some own := by
  refine ⟨(h.table.opened r (List.mem_append_left _ hr)).1, ?_⟩
  rcases List.mem_append.mp hr with hr | hr
  · obtain ⟨j, hj, rfl⟩ := List.mem_map.mp hr
    exact ⟨j, (ticketOf_iff h.table).mpr (h.table.activeTicket j ((OrdMap.mem_keys_iff_contains _ _).mp hj))⟩
  · obtain ⟨j, hj, rfl⟩ := List.mem_map.mp hr
    exact ⟨j, (ticketOf_iff h.table).mpr (h.table.rejectedTicket j ((OrdMap.mem_keys_iff_contains _ _).mp hj))⟩

/-- A request in the tables is not finished, not in a map that was taken out, and if its `Subscription`
was dropped the ticket was for the other table. -/
theorem Inv.in_table {s : Held} (h : Inv s) {r : ℕ} {own : RequestId}
    (hown : s.config.state.ticketOf r = some own) (hr : r ∈ s.callbacks) :
    s.config.state.finished r = false ∧ r ∉ s.config.state.detached ∧
      (r ∈ s.dropped → own < 0 ∧ r ∈ s.config.state.activeCallbacks) := by
  have hopen := (h.table.opened r (List.mem_append_left _ hr)).2.1
  refine ⟨?_, fun hmem => (List.nodup_append.mp h.table.nodup).2.2 r hr r hmem rfl, fun hdropped => ?_⟩
  · by_contra hfin
    obtain ⟨status, hterminal, hmem⟩ := (finished_iff).mp (Bool.eq_true_of_not_eq_false hfin)
    obtain ⟨before, after, hlog⟩ := List.append_of_mem hmem
    exact hopen ⟨before, _, after, hlog, rfl, hterminal⟩
  · obtain ⟨ticket, hmade, hactive, hrejected⟩ := h.gone r hdropped
    have heq : ticket = own := h.table.logged.ticket_unique r _ _ hmade ((ticketOf_iff h.table).mp hown)
    subst heq
    rcases Int.lt_or_le ticket 0 with hneg | hpos
    · exact ⟨hneg, (List.mem_append.mp hr).resolve_right (hrejected hneg)⟩
    · have hmem := (List.mem_append.mp hr).resolve_left (hactive hpos)
      obtain ⟨j, hj, hjr⟩ := List.mem_map.mp hmem
      have hj' := (OrdMap.mem_keys_iff_contains _ _).mp hj
      have hticket := h.table.rejectedTicket j hj'
      rw [hjr] at hticket
      have hneg := (h.table.rejectedRange j hj').2
      rw [h.table.logged.ticket_unique r _ _ hticket hmade] at hneg
      exact absurd hneg (Int.not_lt.mpr hpos)

theorem own_iff_clear (s : Held) (d : Deed) (h : Inv s) : Own s d ↔ Clear s d := by
  cases d with
  | use m => exact Iff.rfl
  | drop r =>
    constructor
    · intro hown hdropped ticket hticket r' hlt hne hsame
      obtain ⟨s', hs⟩ := step_drop_exists hdropped hticket
      obtain ⟨-, -, ticket', hticket', -, -, hstate⟩ := step_drop h hs
      obtain rfl : ticket' = ticket := Option.some.inj (hticket'.symm.trans hticket)
      rcases h.accounted r' hlt with (hkept | hfin) | hgone
      · rcases (mem_kept).mp hkept with hr' | hr' | hr'
        · have hcallbacks : r' ∈ s.callbacks := List.mem_append_left _ hr'
          have hstays := hown s' hs r' hne hcallbacks
          rw [callbacks, hstate, mem_callbacks_cancelled h hsame hcallbacks] at hstays
          exact .inr (.inr (.inr (hstays.resolve_left fun hnot => hnot rfl)))
        · have hcallbacks : r' ∈ s.callbacks := List.mem_append_right _ hr'
          have hstays := hown s' hs r' hne hcallbacks
          rw [callbacks, hstate, mem_callbacks_cancelled h hsame hcallbacks] at hstays
          exact .inr (.inr (.inr (hstays.resolve_left fun hnot => hnot rfl)))
        · exact .inr (.inr (.inl hr'))
      · exact .inl hfin
      · exact .inr (.inl hgone)
    · intro hclear s' hs r' hne hr'
      obtain ⟨hdropped, -, ticket, hticket, -, -, hstate⟩ := step_drop h hs
      obtain ⟨hlt, own, hown⟩ := h.ticket hr'
      rw [callbacks, hstate, mem_callbacks_cancelled h hown hr']
      by_cases heq : own = ticket
      · subst heq
        obtain ⟨hopen, hattached, hkept⟩ := h.in_table hown hr'
        rcases hclear hdropped own hticket r' hlt hne hown with hfin | hgone | hdetached | hactive
        · exact absurd (hopen.symm.trans hfin) Bool.false_ne_true
        · exact .inr (hkept hgone)
        · exact absurd hdetached hattached
        · exact .inr hactive
      · exact .inl heq

/-! ## Runs -/

theorem Inv.step_use {s s' : Held} {m : Move Op} (h : Inv s) (hs : step s (.use m) = some s') : Inv s' := by
  obtain ⟨hstep, hdropped, -⟩ := Held.step_use hs
  obtain ⟨hparted, haccounts⟩ := h.use hs
  refine ⟨h.reached_step hstep, hparted, fun r hlt => ?_, fun r hr => ?_, haccounts.scheduled h.scheduled⟩
  · rw [hdropped]
    by_cases hr : r ∈ s.dropped
    · exact .inr hr
    · exact .inl (haccounts.accounted r hlt fun hlt' => (h.accounted r hlt').resolve_right hr)
  · obtain ⟨ticket, hmade, hactive, hrejected⟩ := h.gone r (hdropped ▸ hr)
    have hlt := h.table.logged.made_lt r ticket hmade
    exact ⟨ticket, haccounts.log.subset hmade, fun hpos hmem => hactive hpos (haccounts.active r hmem hlt),
      fun hneg hmem => hrejected hneg (haccounts.rejected r hmem hlt)⟩

/-- What others keep when a `Subscription` is dropped that takes its own callback only. -/
theorem Inv.others {s s' : Held} {r : ℕ} (h : Inv s) (hown : Own s (.drop r))
    (hs : step s (.drop r) = some s') : ∀ r' ≠ r,
      (s.config.state.Accounted r' → s'.config.state.Accounted r') ∧
        (s.config.state.Promised r' → s'.config.state.Promised r') := by
  obtain ⟨-, -, ticket, -, -, -, hstate⟩ := step_drop h hs
  have hlog : s.config.state.log <+: s'.config.state.log := hstate ▸ List.prefix_append _ _
  have hdetached : s'.config.state.detached = s.config.state.detached := hstate ▸ rfl
  intro r' hne
  have hstays : r' ∈ s.callbacks → r' ∈ s'.callbacks := hown s' hs r' hne
  constructor
  · rintro (hkept | hfin)
    · refine .inl ?_
      rcases List.mem_append.mp hkept with hr' | hr'
      · exact List.mem_append_left _ (hstays hr')
      · exact List.mem_append_right _ (hdetached ▸ hr')
    · exact .inr (finished_mono hlog hfin)
  · rintro (hrejected | hr' | htold)
    · rcases List.mem_append.mp (hstays (List.mem_append_right _ hrejected)) with hactive | hrejected'
      · have hactive' : r' ∈ s.config.state.activeCallbacks := cancelled_active_subset (hstate ▸ hactive)
        have hnodup := (List.nodup_append.mp h.table.nodup).1
        exact absurd rfl ((List.nodup_append.mp hnodup).2.2 r' hactive' r' hrejected)
      · exact .inl hrejected'
    · exact .inr (.inl (hdetached ▸ hr'))
    · exact .inr (.inr (hlog.subset htold))

theorem Inv.step_drop {s s' : Held} {r : ℕ} (h : Inv s) (hown : Own s (.drop r))
    (hs : step s (.drop r) = some s') : Inv s' := by
  obtain ⟨-, hdropped, ticket, hticket, hstep, hparted, hstate⟩ := Held.step_drop h hs
  have hmade := (ticketOf_iff h.table).mp hticket
  have hmade' : s'.config.state.made = s.config.state.made := hstate ▸ rfl
  refine ⟨h.reached_step hstep, hparted, fun r' hlt => ?_, fun r' hr' => ?_, ?_⟩
  · rw [hdropped]
    by_cases hne : r' = r
    · exact .inr (hne ▸ List.mem_cons_self)
    · exact (h.accounted r' (hmade' ▸ hlt)).imp (h.others hown hs r' hne).1 (List.mem_cons_of_mem r)
  · rw [hstate]
    rcases List.mem_cons.mp (hdropped ▸ hr') with rfl | hr'
    · refine ⟨ticket, List.mem_append_left _ hmade, fun hpos hmem => ?_, fun hneg hmem => ?_⟩
      · exact (mem_active_cancelled h.table hmade (cancelled_active_subset hmem)).mp hmem ⟨hpos, rfl⟩
      · exact (mem_rejected_cancelled h.table hmade (cancelled_rejected_subset hmem)).mp hmem ⟨hneg, rfl⟩
    · obtain ⟨own, hown', hactive, hrejected⟩ := h.gone r' hr'
      exact ⟨own, List.mem_append_left _ hown', fun hpos hmem => hactive hpos (cancelled_active_subset hmem),
        fun hneg hmem => hrejected hneg (cancelled_rejected_subset hmem)⟩
  · rw [hstate]
    intro hsome
    exact h.scheduled fun hnil => hsome (List.subset_nil.mp (hnil ▸ cancelled_rejected_subset))

theorem step_inv (s : Held) (d : Deed) (s' : Held) (h : Inv s) (hd : Clear s d) (hs : step s d = some s') :
    Inv s' := by
  cases d with
  | use m => exact h.step_use hs
  | drop r => exact h.step_drop ((own_iff_clear s (.drop r) h).mpr hd) hs

/-- No map is out when no call is pending. -/
theorem detached_nil {ms : List (Move Op)} {c : Config RequestTable Call}
    (hr : Runs.run RequestTable.step (Config.start initial) ms = some c) (hidle : c.frames = []) :
    c.state.detached = [] := by
  have hsound := Sound.run (R := TableRely False)
    (V := fun stack y => RequestTable.Inv False y.1 ∧ (stack = [] → y.1.detached = [])) (TableRely.refl False)
    (fun _ _ _ => TableRely.trans) ?_ ?_ (.start ⟨inv_initial False, fun _ => rfl⟩) (Runs.everyStep_true _ ms) hr
  · refine hsound.valid.2 ?_
    rw [Config.pending, hidle]
    rfl
  · rintro stack x y ⟨hx, hnil⟩ hxy
    exact ⟨(hxy hx).1, fun hstack => (hxy hx).2.detached.trans (hnil hstack)⟩
  · rintro d o - - ⟨hV, hnil⟩
    refine (brings_op hV False.elim).weaken (fun _ y hy => ⟨hy, fun h => absurd h (List.cons_ne_nil _ _)⟩)
      fun _ y hy => ?_
    cases hp : d.pending with
    | nil => exact ⟨hy.1, fun _ => hy.2.detached.trans (hnil hp)⟩
    | cons e rest => exact fun _ => hy

/-- A request that is promised its rejection has been told of it once when all is quiet. -/
theorem Inv.told_once {s : Held} (h : Inv s) {r : ℕ} (hr : s.config.state.Promised r)
    (hidle : s.config.frames = []) (hscheduled : s.config.state.scheduled = 0) :
    s.config.state.log.count (.progress r .rejectedLocally) = 1 := by
  have htold : .progress r .rejectedLocally ∈ s.config.state.log := by
    rcases hr with hrejected | hdetached | htold
    · have hpos := h.scheduled (List.ne_nil_of_mem hrejected)
      exact absurd hscheduled (Nat.ne_of_gt hpos)
    · obtain ⟨ms, hms⟩ := h.reached
      rw [detached_nil hms hidle] at hdetached
      exact absurd hdetached List.not_mem_nil
    · exact htold
  have hmost : s.config.state.log.count (.progress r .rejectedLocally) ≤ 1 :=
    (h.table.logged.final r).count_le_one (fun _ => ⟨rfl, rfl⟩) rfl
  exact le_antisymm hmost (List.count_pos_iff.mpr htold)

/-- Its own `Subscription` apart, nothing takes the promise back. -/
theorem Inv.promise_kept {s s' : Held} {ds : List Deed} {r : ℕ} (h : Inv s) (hr : s.config.state.Promised r)
    (hclear : Runs.EveryStep step Clear s ds) (hrun : Runs.run step s ds = some s') :
    Inv s' ∧ (r ∈ s'.dropped ∨ s'.config.state.Promised r) := by
  refine @Runs.run_invariant _ _ _ Clear (fun t => Inv t ∧ (r ∈ t.dropped ∨ t.config.state.Promised r)) ?_ _ _ _
    ⟨h, .inr hr⟩ hclear hrun
  rintro t d t' ⟨ht, hpromised⟩ hd hs
  refine ⟨step_inv t d t' ht hd hs, ?_⟩
  cases d with
  | use m =>
    rw [(Held.step_use hs).2.1]
    exact hpromised.imp_right ((ht.use hs).2.promised r)
  | drop r' =>
    rw [(Held.step_drop ht hs).2.1]
    by_cases hne : r = r'
    · exact .inl (hne ▸ List.mem_cons_self)
    · have hown := (own_iff_clear t (.drop r') ht).mpr hd
      exact hpromised.imp (List.mem_cons_of_mem r') (ht.others hown hs r hne).2

/-- **A subscription only cancels its own request** exactly in the runs in which none is dropped whose
ticket another request waits under; and in these a rejected request whose own `Subscription` is alive gets
its `RS_REJECTED_LOCALLY` once. -/
theorem subscriptions_own_iff (ds : List Deed) :
    (Runs.EveryStep step Own start ds ↔ Runs.EveryStep step Clear start ds) ∧
      ∀ s, Runs.EveryStep step Clear start ds → Runs.run step start ds = some s →
        ∀ id, s.config.state.requests.rejectedRequests.contains id = true →
          ∀ more s', Runs.EveryStep step Clear s more → Runs.run step s more = some s' →
            s.config.state.rejectedCallback id ∉ s'.dropped → s'.config.frames = [] →
              s'.config.state.scheduled = 0 →
                s'.config.state.log.count (.progress (s.config.state.rejectedCallback id) .rejectedLocally) = 1 := by
  constructor
  · exact Runs.everyStep_congr Inv step_inv own_iff_clear inv_start
  · intro s hclear hrun id hid more s' hclear' hrun' halive hidle hscheduled
    have hinv : Inv s := @Runs.run_invariant _ _ _ Clear Inv step_inv _ _ _ inv_start hclear hrun
    obtain ⟨hinv', hpromised⟩ := hinv.promise_kept (.inl (mem_rejectedCallbacks hid)) hclear' hrun'
    exact hinv'.told_once (hpromised.resolve_left halive) hidle hscheduled

/-! ## A ticket that is given out again -/

/-- A rejected request that is told, and another one. -/
def rejectedTwice : List Deed :=
  [.use (.invoke .newRejectedRequest), .use (.invoke .notifyRejected), .use .ret,
    .use (.invoke .newRejectedRequest)]

def rejectedAgain : Held := Runs.last step start rejectedTwice

/-- The second one's notification. -/
def secondNotification : List Deed := [.use (.invoke .notifyRejected), .use .ret]

theorem second_request_told : Runs.EveryStep step Own start rejectedTwice ∧
    (Runs.last step rejectedAgain secondNotification).config.state.log.count (.progress 1 .rejectedLocally) = 1 := by
  have hclear : Runs.EveryStep step Clear start rejectedTwice := by decide +kernel
  have hrun : Runs.run step start rejectedTwice = some rejectedAgain := Runs.run_last (by decide +kernel)
  refine ⟨(subscriptions_own_iff rejectedTwice).1.mpr hclear, ?_⟩
  exact (subscriptions_own_iff rejectedTwice).2 rejectedAgain hclear hrun (-1) (by decide +kernel)
    secondNotification _ (by decide +kernel) (Runs.run_last (by decide +kernel)) (by decide +kernel)
    (by decide +kernel) (by decide +kernel)

/-- The first one's `Subscription` is dropped before. -/
def droppedLate : List Deed := [.drop 0, .use (.invoke .notifyRejected)]

/-- The second request is never told. -/
theorem second_request_forgotten : ∃ s, Runs.run step start (rejectedTwice ++ droppedLate) = some s ∧
    s.config.frames = [] ∧ s.config.state.scheduled = 0 ∧ s.dropped = [0] ∧
    .made 1 (-1) ∈ s.config.state.log ∧ s.config.state.log.count (.progress 1 .rejectedLocally) = 0 ∧
    ¬Runs.EveryStep step Own start (rejectedTwice ++ droppedLate) := by
  refine ⟨_, Runs.run_last (by decide +kernel), by decide +kernel, by decide +kernel, by decide +kernel,
    by decide +kernel, by decide +kernel, ?_⟩
  rw [Runs.everyStep_congr Inv step_inv own_iff_clear inv_start]
  decide +kernel

end Held
end IpfsLite.Graphsync.RequestTable
