import IpfsLite.Graphsync.RequestTable

/-! # The final word

Whatever the callbacks do to the tables while they run, a request is in one place at a time: in a
table, or in the map that a `cancelAll` has taken out and not got to the end of. From there it is
called for the last time, and then it is nowhere. `quiet` says whether the run is one in which no
ticket of a map taken out is cancelled; only then a cancelled request is silent. -/
namespace IpfsLite.Graphsync.RequestTable
set_option autoImplicit false

open Reentrant EventLog

/-! ## Logs -/

/-- The request has not got its final word, and in a quiet run it has not been cancelled. -/
def OpenAt (quiet : Prop) (log : List RequestEvent) (r : ℕ) : Prop :=
  ¬Closed (Ends r) log ∧ (quiet → ¬Closed (Cancels r) log)

structure Logged (quiet : Prop) (made : ℕ) (log : List RequestEvent) : Prop where
  progress_lt : ∀ r status, .progress r status ∈ log → r < made
  made_lt : ∀ r ticket, .made r ticket ∈ log → r < made
  ticket_unique : ∀ r ticket ticket', .made r ticket ∈ log → .made r ticket' ∈ log → ticket = ticket'
  final : ∀ r, SilentAfter (Ends r) (IsProgress r) log
  silent : quiet → ∀ r, SilentAfter (Cancels r) (IsProgress r) log

section
variable {quiet : Prop} {made r : ℕ} {log : List RequestEvent}

theorem Logged.fresh (h : Logged quiet made log) : OpenAt quiet log made := by
  constructor
  · rintro ⟨before, e, after, rfl, he⟩
    cases e with
    | progress r status =>
      have hmem : .progress r status ∈ before ++ .progress r status :: after := by simp
      exact absurd (he.1 ▸ h.progress_lt r status hmem) (lt_irrefl _)
    | _ => exact he
  · rintro - ⟨before, e, after, rfl, he⟩
    cases e with
    | unsubscribed ticket =>
      exact absurd (h.made_lt made ticket (List.mem_append_left _ he)) (lt_irrefl _)
    | _ => exact he

theorem OpenAt.append {e : RequestEvent} (h : OpenAt quiet log r) (hends : ¬Ends r log e)
    (hcancels : quiet → ¬Cancels r log e) : OpenAt quiet (log ++ [e]) r :=
  ⟨fun hc => ((closed_append).mp hc).elim h.1 hends,
    fun hq hc => ((closed_append).mp hc).elim (h.2 hq) (hcancels hq)⟩

theorem Logged.append_progress (h : Logged quiet made log) (hlt : r < made) (hopen : OpenAt quiet log r)
    (status : ResponseStatusCode) : Logged quiet made (log ++ [.progress r status]) where
  progress_lt r' status' hmem := by
    rcases List.mem_append.mp hmem with hmem | hmem
    · exact h.progress_lt r' status' hmem
    · cases List.mem_singleton.mp hmem
      exact hlt
  made_lt r' ticket hmem := h.made_lt r' ticket (by simpa using hmem)
  ticket_unique r' t t' ht ht' := h.ticket_unique r' t t' (by simpa using ht) (by simpa using ht')
  final r' := (h.final r').append fun hloud => by
    have hr : r = r' := hloud
    exact hr ▸ hopen.1
  silent hq r' := (h.silent hq r').append fun hloud => by
    have hr : r = r' := hloud
    exact hr ▸ hopen.2 hq

theorem Logged.append_unsubscribed (h : Logged quiet made log) (ticket : RequestId) :
    Logged quiet made (log ++ [.unsubscribed ticket]) where
  progress_lt r' status' hmem := h.progress_lt r' status' (by simpa using hmem)
  made_lt r' ticket hmem := h.made_lt r' ticket (by simpa using hmem)
  ticket_unique r' t t' ht ht' := h.ticket_unique r' t t' (by simpa using ht) (by simpa using ht')
  final r' := (h.final r').append fun hloud => hloud.elim
  silent hq r' := (h.silent hq r').append fun hloud => hloud.elim

theorem Logged.append_made (h : Logged quiet made log) (ticket : RequestId) :
    Logged quiet (made + 1) (log ++ [.made made ticket]) where
  progress_lt r' status' hmem :=
    Nat.lt_succ_of_lt (h.progress_lt r' status' (by simpa using hmem))
  made_lt r' ticket' hmem := by
    rcases List.mem_append.mp hmem with hmem | hmem
    · exact Nat.lt_succ_of_lt (h.made_lt r' ticket' hmem)
    · cases List.mem_singleton.mp hmem
      exact Nat.lt_succ_self made
  ticket_unique r' t t' ht ht' := by
    rcases List.mem_append.mp ht with ht | ht <;> rcases List.mem_append.mp ht' with ht' | ht'
    · exact h.ticket_unique r' t t' ht ht'
    · cases List.mem_singleton.mp ht'
      exact absurd (h.made_lt _ t ht) (lt_irrefl _)
    · cases List.mem_singleton.mp ht
      exact absurd (h.made_lt _ t' ht') (lt_irrefl _)
    · cases List.mem_singleton.mp ht
      cases List.mem_singleton.mp ht'
      rfl
  final r' := (h.final r').append fun hloud => hloud.elim
  silent hq r' := (h.silent hq r').append fun hloud => hloud.elim

end

/-! ## Invariant -/

/-- Where callbacks are kept. -/
def kept (s : RequestTable) : List ℕ := s.activeCallbacks ++ s.rejectedCallbacks ++ s.detached

structure Inv (quiet : Prop) (s : RequestTable) : Prop where
  logged : Logged quiet s.made s.log
  nodup : s.kept.Nodup
  opened : ∀ r ∈ s.kept, r < s.made ∧ OpenAt quiet s.log r
  activeTicket : ∀ id, s.requests.activeRequests.contains id = true → .made (s.activeCallback id) id ∈ s.log
  rejectedTicket : ∀ id, s.requests.rejectedRequests.contains id = true →
    .made (s.rejectedCallback id) id ∈ s.log
  rejectedRange : ∀ id, s.requests.rejectedRequests.contains id = true →
    s.requests.currentRejectedRequestId ≤ id ∧ id < 0
  current : s.requests.currentRejectedRequestId ≤ 0

theorem inv_initial (quiet : Prop) : Inv quiet initial where
  logged :=
    ⟨fun _ _ h => absurd h List.not_mem_nil, fun _ _ h => absurd h List.not_mem_nil,
      fun _ _ _ h => absurd h List.not_mem_nil, fun _ => silentAfter_nil, fun _ _ => silentAfter_nil⟩
  nodup := List.nodup_nil
  opened _ h := absurd h List.not_mem_nil
  activeTicket _ h := absurd h Bool.false_ne_true
  rejectedTicket _ h := absurd h Bool.false_ne_true
  rejectedRange _ h := absurd h Bool.false_ne_true
  current := le_refl 0

section
variable {quiet : Prop} {s t : RequestTable}

/-- A table from which something was taken, or in which callbacks have changed places. -/
theorem Inv.shrink (h : Inv quiet s) (hkept : t.kept.Subperm s.kept) (hlog : t.log = s.log)
    (hmade : t.made = s.made)
    (hactive : ∀ id, t.requests.activeRequests.contains id = true →
      s.requests.activeRequests.contains id = true ∧ t.activeCallback id = s.activeCallback id)
    (hrejected : ∀ id, t.requests.rejectedRequests.contains id = true →
      s.requests.rejectedRequests.contains id = true ∧ t.rejectedCallback id = s.rejectedCallback id ∧
        t.requests.currentRejectedRequestId = s.requests.currentRejectedRequestId)
    (hcurrent : t.requests.currentRejectedRequestId ≤ 0) : Inv quiet t where
  logged := by
    rw [hlog, hmade]
    exact h.logged
  nodup := by
    obtain ⟨l, hperm, hsub⟩ := hkept
    exact hperm.nodup_iff.mp (h.nodup.sublist hsub)
  opened r hr := by
    rw [hlog, hmade]
    exact h.opened r (hkept.subset hr)
  activeTicket id hid := by
    obtain ⟨hs, hcallback⟩ := hactive id hid
    rw [hlog, hcallback]
    exact h.activeTicket id hs
  rejectedTicket id hid := by
    obtain ⟨hs, hcallback, -⟩ := hrejected id hid
    rw [hlog, hcallback]
    exact h.rejectedTicket id hs
  rejectedRange id hid := by
    obtain ⟨hs, -, hids⟩ := hrejected id hid
    rw [hids]
    exact h.rejectedRange id hs
  current := hcurrent

/-- A callback that is open is called; if it is for the last time it is not kept any more. -/
theorem Inv.progress (h : Inv quiet s) {r : ℕ} {status : ResponseStatusCode} (hlt : r < s.made)
    (hopen : OpenAt quiet s.log r) (hlast : isTerminal status = true → r ∉ s.kept) :
    Inv quiet (note (.progress r status) s) where
  logged := h.logged.append_progress hlt hopen status
  nodup := h.nodup
  opened r' hr' := by
    obtain ⟨hlt', hopen'⟩ := h.opened r' hr'
    refine ⟨hlt', hopen'.append ?_ fun _ hc => hc⟩
    rintro ⟨rfl, hterminal⟩
    exact hlast hterminal hr'
  activeTicket id hid := List.mem_append_left _ (h.activeTicket id hid)
  rejectedTicket id hid := List.mem_append_left _ (h.rejectedTicket id hid)
  rejectedRange := h.rejectedRange
  current := h.current

theorem Inv.unsubscribed (h : Inv quiet s) {ticket : RequestId}
    (hcancel : quiet → ∀ r ∈ s.kept, .made r ticket ∉ s.log) :
    Inv quiet (note (.unsubscribed ticket) s) where
  logged := h.logged.append_unsubscribed ticket
  nodup := h.nodup
  opened r hr := by
    obtain ⟨hlt, hopen⟩ := h.opened r hr
    exact ⟨hlt, hopen.append (fun hc => hc) fun hq => hcancel hq r hr⟩
  activeTicket id hid := List.mem_append_left _ (h.activeTicket id hid)
  rejectedTicket id hid := List.mem_append_left _ (h.rejectedTicket id hid)
  rejectedRange := h.rejectedRange
  current := h.current

/-- A new request is kept in one more place. -/
theorem Inv.made (h : Inv quiet s) {id : RequestId} (hkept : t.kept.Perm (s.made :: s.kept))
    (hlog : t.log = s.log ++ [.made s.made id]) (hmade : t.made = s.made + 1)
    (hactive : ∀ j, t.requests.activeRequests.contains j = true →
      j = id ∧ t.activeCallback j = s.made ∨
        s.requests.activeRequests.contains j = true ∧ t.activeCallback j = s.activeCallback j)
    (hrejected : ∀ j, t.requests.rejectedRequests.contains j = true →
      j = id ∧ t.rejectedCallback j = s.made ∨
        s.requests.rejectedRequests.contains j = true ∧ t.rejectedCallback j = s.rejectedCallback j)
    (hrange : ∀ j, t.requests.rejectedRequests.contains j = true →
      t.requests.currentRejectedRequestId ≤ j ∧ j < 0)
    (hcurrent : t.requests.currentRejectedRequestId ≤ 0) : Inv quiet t where
  logged := by
    rw [hlog, hmade]
    exact h.logged.append_made id
  nodup := by
    refine hkept.nodup_iff.mpr (List.nodup_cons.mpr ⟨fun hmem => ?_, h.nodup⟩)
    exact absurd (h.opened _ hmem).1 (lt_irrefl _)
  opened r hr := by
    rw [hlog, hmade]
    rcases List.mem_cons.mp (hkept.subset hr) with rfl | hr
    · exact ⟨Nat.lt_succ_self _, h.logged.fresh.append (fun hc => hc) fun _ hc => hc⟩
    · obtain ⟨hlt, hopen⟩ := h.opened r hr
      exact ⟨Nat.lt_succ_of_lt hlt, hopen.append (fun hc => hc) fun _ hc => hc⟩
  activeTicket j hj := by
    rw [hlog]
    rcases hactive j hj with ⟨rfl, hcallback⟩ | ⟨hs, hcallback⟩ <;> rw [hcallback]
    · exact List.mem_append_right _ (List.mem_singleton.mpr rfl)
    · exact List.mem_append_left _ (h.activeTicket j hs)
  rejectedTicket j hj := by
    rw [hlog]
    rcases hrejected j hj with ⟨rfl, hcallback⟩ | ⟨hs, hcallback⟩ <;> rw [hcallback]
    · exact List.mem_append_right _ (List.mem_singleton.mpr rfl)
    · exact List.mem_append_left _ (h.rejectedTicket j hs)
  rejectedRange := hrange
  current := hcurrent

end

/-! ## Tables of callbacks -/

theorem map_insert_perm {m : OrdMap RequestId Unit} {id : RequestId} (h : m.contains id = false)
    (callback : RequestId → ℕ) (r : ℕ) :
    ((m.insert id ()).keys.map (Function.update callback id r)).Perm (r :: m.keys.map callback) := by
  have hsame : m.keys.map (Function.update callback id r) = m.keys.map callback := by
    refine List.map_congr_left fun j hj => Function.update_of_ne ?_ _ _
    rintro rfl
    rw [OrdMap.mem_keys_iff_contains, h] at hj
    exact Bool.false_ne_true hj
  refine ((OrdMap.keys_insert_perm h ()).map _).trans ?_
  rw [List.map_cons, Function.update_self, hsame]

theorem map_erase_perm {m : OrdMap RequestId Unit} {id : RequestId} (h : m.contains id = true)
    (callback : RequestId → ℕ) :
    (m.keys.map callback).Perm (callback id :: (m.erase id).keys.map callback) :=
  (OrdMap.keys_erase_perm h).map callback

theorem mem_activeCallbacks {s : RequestTable} {id : RequestId}
    (h : s.requests.activeRequests.contains id = true) : s.activeCallback id ∈ s.activeCallbacks :=
  List.mem_map_of_mem ((OrdMap.mem_keys_iff_contains _ _).mpr h)

theorem mem_rejectedCallbacks {s : RequestTable} {id : RequestId}
    (h : s.requests.rejectedRequests.contains id = true) : s.rejectedCallback id ∈ s.rejectedCallbacks :=
  List.mem_map_of_mem ((OrdMap.mem_keys_iff_contains _ _).mpr h)

section
variable {quiet : Prop} {s : RequestTable}

/-- The callback of a new active request is one more. -/
theorem keepActive_callbacks {requests : LocalRequests} {id : RequestId}
    (hfresh : s.requests.activeRequests.contains id = false)
    (hactive : requests.activeRequests = s.requests.activeRequests.insert id ())
    (hrejected : requests.rejectedRequests = s.requests.rejectedRequests) :
    (s.keepActive requests id).activeCallbacks.Perm (s.made :: s.activeCallbacks) ∧
      (s.keepActive requests id).rejectedCallbacks = s.rejectedCallbacks := by
  have hperm := map_insert_perm hfresh s.activeCallback s.made
  rw [← hactive] at hperm
  exact ⟨hperm, by simp only [rejectedCallbacks, keepActive, hrejected]⟩

theorem inv_keepActive (h : Inv quiet s) {requests : LocalRequests} {id : RequestId}
    (hfresh : s.requests.activeRequests.contains id = false)
    (hactive : requests.activeRequests = s.requests.activeRequests.insert id ())
    (hrejected : requests.rejectedRequests = s.requests.rejectedRequests)
    (hids : requests.currentRejectedRequestId = s.requests.currentRejectedRequestId) :
    Inv quiet (s.keepActive requests id) := by
  obtain ⟨hperm, hrest⟩ := keepActive_callbacks hfresh hactive hrejected
  refine @Inv.made _ _ _ h id ?_ rfl rfl ?_ ?_ ?_ ?_
  · unfold kept
    rw [hrest]
    exact (hperm.append_right _).append_right _
  · intro j hj
    by_cases hid : j = id
    · subst hid
      exact .inl ⟨rfl, Function.update_self _ _ _⟩
    · refine .inr ⟨?_, Function.update_of_ne hid _ _⟩
      rw [show (s.keepActive requests id).requests.activeRequests = _ from hactive,
        OrdMap.contains_insert] at hj
      simpa [hid] using hj
  · intro j hj
    rw [show (s.keepActive requests id).requests.rejectedRequests = _ from hrejected] at hj
    exact .inr ⟨hj, rfl⟩
  · intro j hj
    rw [show (s.keepActive requests id).requests.rejectedRequests = _ from hrejected] at hj
    exact (hids ▸ h.rejectedRange j hj : _)
  · exact hids.trans_le h.current

/-- The new id is below all that are in use. -/
theorem rejected_fresh (h : Inv quiet s) :
    s.requests.rejectedRequests.contains (s.requests.currentRejectedRequestId - 1) = false := by
  by_contra hc
  have hrange := h.rejectedRange _ (Bool.eq_true_of_not_eq_false hc)
  omega

theorem keepRejected_callbacks (h : Inv quiet s) {requests : LocalRequests}
    (hactive : requests.activeRequests = s.requests.activeRequests)
    (hrejected : requests.rejectedRequests =
      s.requests.rejectedRequests.insert (s.requests.currentRejectedRequestId - 1) ())
    (hids : requests.currentRejectedRequestId = s.requests.currentRejectedRequestId - 1) :
    (s.keepRejected requests).rejectedCallbacks.Perm (s.made :: s.rejectedCallbacks) ∧
      (s.keepRejected requests).activeCallbacks = s.activeCallbacks := by
  have hperm := map_insert_perm (rejected_fresh h) s.rejectedCallback s.made
  rw [← hrejected, ← hids] at hperm
  exact ⟨hperm, by simp only [activeCallbacks, keepRejected, hactive]⟩

theorem inv_keepRejected (h : Inv quiet s) {requests : LocalRequests}
    (hactive : requests.activeRequests = s.requests.activeRequests)
    (hrejected : requests.rejectedRequests =
      s.requests.rejectedRequests.insert (s.requests.currentRejectedRequestId - 1) ())
    (hids : requests.currentRejectedRequestId = s.requests.currentRejectedRequestId - 1) :
    Inv quiet (s.keepRejected requests) := by
  have hcurrent := h.current
  have hcontains (j : RequestId) (hj : requests.rejectedRequests.contains j = true) :
      j = requests.currentRejectedRequestId ∨ s.requests.rejectedRequests.contains j = true := by
    rw [hrejected, OrdMap.contains_insert, Bool.or_eq_true, decide_eq_true_iff] at hj
    exact hids.symm ▸ hj
  obtain ⟨hperm, hrest⟩ := keepRejected_callbacks h hactive hrejected hids
  refine @Inv.made _ _ _ h requests.currentRejectedRequestId ?_ rfl rfl ?_ ?_ ?_ ?_
  · unfold kept
    rw [hrest]
    refine ((hperm.append_left _).append_right _).trans ?_
    exact List.perm_middle.append_right _
  · intro j hj
    rw [show (s.keepRejected requests).requests.activeRequests = _ from hactive] at hj
    exact .inr ⟨hj, rfl⟩
  · intro j hj
    by_cases hid : j = requests.currentRejectedRequestId
    · subst hid
      exact .inl ⟨rfl, Function.update_self _ _ _⟩
    · exact .inr ⟨(hcontains j hj).resolve_left hid, Function.update_of_ne hid _ _⟩
  · intro j hj
    show requests.currentRejectedRequestId ≤ j ∧ j < 0
    rcases hcontains j hj with rfl | hj
    · have hneg : (requests.currentRejectedRequestId : ℤ) < 0 := by omega
      exact ⟨le_refl _, hneg⟩
    · have hrange := h.rejectedRange j hj
      exact ⟨by omega, hrange.2⟩
  · show requests.currentRejectedRequestId ≤ 0
    omega

/-- The tables are swapped with empty ones, and what was in them is still to be called. -/
theorem inv_detachActive (h : Inv quiet s) :
    Inv quiet (s.detach s.activeCallbacks { s.requests with activeRequests := .empty }) := by
  refine h.shrink ?_ rfl rfl (fun id hid => absurd hid Bool.false_ne_true) (fun id hid => ⟨hid, rfl, rfl⟩) h.current
  refine List.Perm.subperm ?_
  show ([] ++ s.rejectedCallbacks ++ (s.activeCallbacks ++ s.detached)).Perm
    (s.activeCallbacks ++ s.rejectedCallbacks ++ s.detached)
  rw [List.nil_append, ← List.append_assoc]
  exact List.perm_append_comm.append_right _

theorem inv_detachRejected (h : Inv quiet s) :
    Inv quiet (s.detach s.rejectedCallbacks { s.requests with rejectedRequests := .empty }) := by
  refine h.shrink ?_ rfl rfl (fun id hid => ⟨hid, rfl⟩) (fun id hid => absurd hid Bool.false_ne_true) h.current
  refine List.Perm.subperm ?_
  show (s.activeCallbacks ++ [] ++ (s.rejectedCallbacks ++ s.detached)).Perm
    (s.activeCallbacks ++ s.rejectedCallbacks ++ s.detached)
  rw [List.append_nil, ← List.append_assoc]

/-- The next callback of a map that was taken out is called. -/
theorem inv_cancelNext (h : Inv quiet s) {r : ℕ} {rest : List ℕ} (hdetached : s.detached = r :: rest) :
    Inv quiet (note (.progress r .rejectedLocally) { s with detached := s.detached.erase r }) := by
  have hmem : r ∈ s.kept := by
    unfold kept
    rw [hdetached]
    exact List.mem_append_right _ List.mem_cons_self
  have hperm : s.kept.Perm (r :: ({ s with detached := s.detached.erase r } : RequestTable).kept) := by
    show (s.activeCallbacks ++ s.rejectedCallbacks ++ s.detached).Perm
      (r :: (s.activeCallbacks ++ s.rejectedCallbacks ++ s.detached.erase r))
    rw [hdetached, List.erase_cons_head]
    exact List.perm_middle
  have hrest : Inv quiet { s with detached := s.detached.erase r } := by
    refine h.shrink ?_ rfl rfl (fun id hid => ⟨hid, rfl⟩) (fun id hid => ⟨hid, rfl, rfl⟩) h.current
    exact (List.sublist_cons_self r _).subperm.trans hperm.symm.subperm
  obtain ⟨hlt, hopen⟩ := h.opened r hmem
  refine hrest.progress hlt hopen fun _ => ?_
  exact (List.nodup_cons.mp (hperm.nodup_iff.mp h.nodup)).1

theorem inv_onResponse (h : Inv quiet s) (id : RequestId) (status : ResponseStatusCode)
    (hanswered : (s.requests.onResponse id status).2 = true) :
    Inv quiet (note (.progress (s.activeCallback id) status)
      (s.setRequests (s.requests.onResponse id status).1)) := by
  unfold LocalRequests.onResponse at hanswered ⊢
  by_cases hactive : s.requests.activeRequests.contains id = false
  · rw [if_pos hactive] at hanswered
    cases hanswered
  have hcontains : s.requests.activeRequests.contains id = true := by simpa using hactive
  have hmem : s.activeCallback id ∈ s.kept :=
    List.mem_append_left _ (List.mem_append_left _ (mem_activeCallbacks hcontains))
  obtain ⟨hlt, hopen⟩ := h.opened _ hmem
  simp only [if_neg hactive]
  by_cases hterminal : isTerminal status = true
  · simp only [if_pos hterminal]
    have hperm : s.kept.Perm (s.activeCallback id :: (s.setRequests
        { s.requests with activeRequests := s.requests.activeRequests.erase id }).kept) :=
      ((map_erase_perm hcontains s.activeCallback).append_right _).append_right _
    have hrest : Inv quiet (s.setRequests
        { s.requests with activeRequests := s.requests.activeRequests.erase id }) := by
      refine h.shrink ?_ rfl rfl (fun j hj => ⟨?_, rfl⟩) (fun j hj => ⟨hj, rfl, rfl⟩) h.current
      · exact (List.sublist_cons_self _ _).subperm.trans hperm.symm.subperm
      · rw [setRequests, OrdMap.contains_erase, Bool.and_eq_true] at hj
        exact hj.2
    refine hrest.progress hlt hopen fun _ => ?_
    exact (List.nodup_cons.mp (hperm.nodup_iff.mp h.nodup)).1
  · simp only [if_neg hterminal]
    exact h.progress hlt hopen fun ht => absurd ht hterminal

end

/-! ## What may happen during a call -/

/-- The event is among those that have been added. -/
def Since (s t : RequestTable) (e : RequestEvent) : Prop := ∃ added, t.log = s.log ++ added ∧ e ∈ added

/-- The log has grown, and a rejected request is where it was, or was cancelled, or was called. -/
structure Extends (s t : RequestTable) : Prop where
  log : s.log <+: t.log
  rejected : ∀ id, s.requests.rejectedRequests.contains id = true →
    (t.requests.rejectedRequests.contains id = true ∧ t.rejectedCallback id = s.rejectedCallback id) ∨
      Since s t (.unsubscribed id) ∨ Since s t (.progress (s.rejectedCallback id) .rejectedLocally)

/-- The maps that have been taken out are left alone. -/
structure Moves (s t : RequestTable) : Prop extends Extends s t where
  detached : t.detached = s.detached

section
variable {s t u : RequestTable} {e : RequestEvent}

theorem Since.later (h : Since s t e) (hlog : t.log <+: u.log) : Since s u e := by
  obtain ⟨added, hadded, he⟩ := h
  obtain ⟨more, hmore⟩ := hlog
  exact ⟨added ++ more, by rw [← hmore, hadded, List.append_assoc], List.mem_append_left _ he⟩

theorem Since.earlier (h : Since t u e) (hlog : s.log <+: t.log) : Since s u e := by
  obtain ⟨added, hadded, he⟩ := h
  obtain ⟨more, hmore⟩ := hlog
  exact ⟨more ++ added, by rw [hadded, ← hmore, List.append_assoc], List.mem_append_right _ he⟩

theorem Extends.refl (s : RequestTable) : Extends s s := ⟨List.prefix_refl _, fun _ h => .inl ⟨h, rfl⟩⟩

theorem Extends.trans (h : Extends s t) (h' : Extends t u) : Extends s u where
  log := h.log.trans h'.log
  rejected id hid := by
    rcases h.rejected id hid with ⟨ht, hcallback⟩ | hcancelled | hcalled
    · rcases h'.rejected id ht with ⟨hu, hcallback'⟩ | hcancelled | hcalled
      · exact .inl ⟨hu, hcallback'.trans hcallback⟩
      · exact .inr (.inl (hcancelled.earlier h.log))
      · exact .inr (.inr (hcallback ▸ hcalled.earlier h.log))
    · exact .inr (.inl (hcancelled.later h'.log))
    · exact .inr (.inr (hcalled.later h'.log))

theorem Moves.refl (s : RequestTable) : Moves s s := ⟨Extends.refl s, rfl⟩

theorem Moves.trans (h : Moves s t) (h' : Moves t u) : Moves s u :=
  ⟨h.toExtends.trans h'.toExtends, h'.detached.trans h.detached⟩

theorem since_note (s : RequestTable) (e : RequestEvent) : Since s (note e s) e :=
  ⟨[e], rfl, List.mem_singleton.mpr rfl⟩

theorem moves_note (s : RequestTable) (e : RequestEvent) : Moves s (note e s) :=
  ⟨⟨List.prefix_append _ _, fun _ h => .inl ⟨h, rfl⟩⟩, rfl⟩

end

/-- What others may do while a callback runs. -/
def TableRely (quiet : Prop) (x y : Trace RequestTable Call) : Prop :=
  Inv quiet x.1 → Inv quiet y.1 ∧ Moves x.1 y.1

theorem TableRely.refl (quiet : Prop) (x : Trace RequestTable Call) : TableRely quiet x x :=
  fun h => ⟨h, Moves.refl x.1⟩

theorem TableRely.trans {quiet : Prop} {x y z : Trace RequestTable Call} (h : TableRely quiet x y)
    (h' : TableRely quiet y z) : TableRely quiet x z := fun hx =>
  ⟨(h' (h hx).1).1, (h hx).2.trans (h' (h hx).1).2⟩

/-- Begun in `s`, the program keeps the invariant at its calls and brings about `Q`. -/
abbrev Brings {α : Type} (quiet : Prop) (Q : RequestTable → Prop) (r : Res RequestTable Call α)
    (calls : List Call) : Prop :=
  Meets (TableRely quiet) (fun _ y => Inv quiet y.1) (fun _ y => Inv quiet y.1 ∧ Q y.1) r calls

section
variable {quiet : Prop} {s : RequestTable} {calls : List Call}

/-- A callback is called, and whatever it does comes to pass. -/
theorem brings_call {Q : RequestTable → Prop} {c : Call} (h : Inv quiet s)
    (hQ : ∀ t, Inv quiet t → Moves s t → Q t) : Brings quiet Q (Prog.call c s) calls :=
  ⟨h, fun y hy => ⟨(hy h).1, hQ y.1 (hy h).1 (hy h).2⟩⟩

/-- The loop over a map that was taken out. -/
theorem brings_cancelLoop {callbacks base : List ℕ} (h : Inv quiet s)
    (hdetached : s.detached = callbacks ++ base) :
    Brings quiet (fun t => t.detached = base ∧ Extends s t ∧
      ∀ r ∈ callbacks, Since s t (.progress r .rejectedLocally)) (cancelLoop callbacks s) calls := by
  let I (rest : List ℕ) (y : Trace RequestTable Call) : Prop :=
    Inv quiet y.1 ∧ y.1.detached = rest ++ base ∧ Extends s y.1 ∧
      ∀ r ∈ callbacks, r ∈ rest ∨ Since s y.1 (.progress r .rejectedLocally)
  refine Meets.forM (I := I) ?_ ?_ callbacks (s, calls) ⟨h, hdetached, Extends.refl s, fun r hr => .inl hr⟩
  · intro r rest y hy
    obtain ⟨hinv, hdet, hext, hcalled⟩ := hy
    let next : RequestTable := note (.progress r .rejectedLocally) { y.1 with detached := y.1.detached.erase r }
    have hnext : Inv quiet next := inv_cancelNext hinv hdet
    have hstep : Extends y.1 next := ⟨List.prefix_append _ _, fun _ hid => .inl ⟨hid, rfl⟩⟩
    have hsince : Since y.1 next (.progress r .rejectedLocally) := ⟨[_], rfl, List.mem_singleton.mpr rfl⟩
    have herase : next.detached = rest ++ base := by
      show y.1.detached.erase r = _
      rw [hdet, List.cons_append, List.erase_cons_head]
    refine ⟨hnext, fun z hz => ?_⟩
    obtain ⟨hinv', hmoves⟩ := hz hnext
    refine ⟨hinv', hmoves.detached.trans herase, hext.trans (hstep.trans hmoves.toExtends), fun r' hr' => ?_⟩
    rcases hcalled r' hr' with hrest | hdone
    · rcases List.mem_cons.mp hrest with rfl | hrest
      · exact .inr ((hsince.later hmoves.log).earlier hext.log)
      · exact .inl hrest
    · exact .inr (hdone.later (hstep.log.trans hmoves.log))
  · rintro y ⟨hinv, hdet, hext, hcalled⟩
    exact ⟨hinv, hdet, hext, fun r hr => (hcalled r hr).resolve_left List.not_mem_nil⟩

/-- Every active request gets its final word. -/
theorem brings_cancelActive (h : Inv quiet s) :
    Brings quiet (fun t => Moves s t ∧ ∀ id, s.requests.activeRequests.contains id = true →
      Since s t (.progress (s.activeCallback id) .rejectedLocally)) (cancelActive s) calls := by
  have hloop := @brings_cancelLoop _ _ calls _ _ (inv_detachActive h)
    (show _ = s.activeCallbacks ++ s.detached from rfl)
  refine Meets.get (Meets.modify (hloop.mono ?_))
  rintro - y ⟨hinv, hdet, hext, hcalled⟩
  refine ⟨hinv, ⟨⟨hext.log, hext.rejected⟩, hdet⟩, fun id hid => ?_⟩
  exact hcalled _ (mem_activeCallbacks hid)

theorem brings_cancelRejected (h : Inv quiet s) :
    Brings quiet (fun t => Moves s t ∧ ∀ id, s.requests.rejectedRequests.contains id = true →
      Since s t (.progress (s.rejectedCallback id) .rejectedLocally)) (cancelRejected s) calls := by
  have hloop := @brings_cancelLoop _ _ calls _ _ (inv_detachRejected h)
    (show _ = s.rejectedCallbacks ++ s.detached from rfl)
  refine Meets.get (Meets.modify (hloop.mono ?_))
  rintro - y ⟨hinv, hdet, hext, hcalled⟩
  have hall (id : RequestId) (hid : s.requests.rejectedRequests.contains id = true) :
      Since s y.1 (.progress (s.rejectedCallback id) .rejectedLocally) :=
    hcalled _ (mem_rejectedCallbacks hid)
  exact ⟨hinv, ⟨⟨hext.log, fun id hid => .inr (.inr (hall id hid))⟩, hdet⟩, hall⟩

/-- What `cancelAll` owes to the requests that are there when it is begun. -/
def Told (s t : RequestTable) : Prop :=
  (∀ id, s.requests.activeRequests.contains id = true →
    Since s t (.progress (s.activeCallback id) .rejectedLocally)) ∧
  ∀ id, s.requests.rejectedRequests.contains id = true →
    Since s t (.unsubscribed id) ∨ Since s t (.progress (s.rejectedCallback id) .rejectedLocally)

theorem brings_cancelAll (h : Inv quiet s) :
    Brings quiet (fun t => Moves s t ∧ Told s t) (cancelAll s) calls := by
  refine Meets.seq ((brings_cancelActive h).mono ?_)
  rintro - y ⟨hinv, hmoves, hactive⟩
  refine (brings_cancelRejected hinv).mono ?_
  rintro - z ⟨hinv', hmoves', hrejected⟩
  refine ⟨hinv', hmoves.trans hmoves', fun id hid => (hactive id hid).later hmoves'.log, fun id hid => ?_⟩
  rcases hmoves.rejected id hid with ⟨hstill, hcallback⟩ | hcancelled | hcalled
  · exact .inr (hcallback ▸ (hrejected id hstill).earlier hmoves.log)
  · exact .inl (hcancelled.later hmoves'.log)
  · exact .inr (hcalled.later hmoves'.log)

theorem brings_modify {f : RequestTable → RequestTable} (hinv : Inv quiet (f s)) (hmoves : Moves s (f s)) :
    Brings quiet (Moves s) (Prog.modify f s : Res RequestTable Call Unit) calls := ⟨hinv, hmoves⟩

theorem moves_keepRejected (h : Inv quiet s) {requests : LocalRequests}
    (hrejected : requests.rejectedRequests =
      s.requests.rejectedRequests.insert (s.requests.currentRejectedRequestId - 1) ())
    (hids : requests.currentRejectedRequestId = s.requests.currentRejectedRequestId - 1) :
    Moves s (s.keepRejected requests) := by
  refine ⟨⟨List.prefix_append _ _, fun id hid => .inl ⟨?_, Function.update_of_ne ?_ _ _⟩⟩, rfl⟩
  · rw [show (s.keepRejected requests).requests.rejectedRequests = _ from hrejected, OrdMap.contains_insert,
      hid, Bool.or_true]
  · rintro rfl
    rw [hids, rejected_fresh h] at hid
    exact Bool.false_ne_true hid

theorem brings_newRequest (h : Inv quiet s) (g : IdGenerator) (rootCid : CID) (selector : Bytes)
    (extensions : List Extension) :
    Brings quiet (Moves s) (newRequest g rootCid selector extensions s) calls := by
  suffices hadd : Inv quiet (addRequest g rootCid selector extensions s) ∧
      Moves s (addRequest g rootCid selector extensions s) from brings_modify hadd.1 hadd.2
  unfold addRequest
  rcases LocalRequests.newRequest_cases s.requests g rootCid selector extensions rfl rfl with
    ⟨hnone, hl, -⟩ | ⟨hsome, hactive, hrejected, hids, -⟩ |
      ⟨id, body, hsome, hbody, hfresh, hactive, hrejected, hids, -⟩
  · simp only [hnone, hl]
    refine ⟨?_, ⟨List.prefix_refl _, fun id hid => .inl ⟨hid, rfl⟩⟩, rfl⟩
    exact h.shrink (List.Subperm.refl _) rfl rfl (fun id hid => ⟨hid, rfl⟩) (fun id hid => ⟨hid, rfl, rfl⟩)
      h.current
  · simp only [hsome, if_true]
    exact ⟨inv_keepRejected h hactive hrejected hids, moves_keepRejected h hrejected hids⟩
  · simp only [hsome, if_neg hbody]
    refine ⟨inv_keepActive h hfresh hactive hrejected hids, ⟨List.prefix_append _ _, fun j hj => .inl ⟨?_, rfl⟩⟩, rfl⟩
    rw [show (s.keepActive _ id).requests.rejectedRequests = _ from hrejected]
    exact hj

theorem brings_newRejectedRequest (h : Inv quiet s) :
    Brings quiet (Moves s) (newRejectedRequest s) calls :=
  brings_modify (inv_keepRejected h rfl rfl rfl) (moves_keepRejected h rfl rfl)

theorem onResponse_rejected (l : LocalRequests) (id : RequestId) (status : ResponseStatusCode) :
    (l.onResponse id status).1.rejectedRequests = l.rejectedRequests := by
  unfold LocalRequests.onResponse
  split
  · rfl
  · split <;> rfl

theorem onResponse_ignored {l : LocalRequests} {id : RequestId} {status : ResponseStatusCode}
    (h : (l.onResponse id status).2 ≠ true) : (l.onResponse id status).1 = l := by
  unfold LocalRequests.onResponse at h ⊢
  by_cases hactive : l.activeRequests.contains id = false
  · rw [if_pos hactive]
  · rw [if_neg hactive] at h
    split at h <;> exact absurd rfl h

theorem brings_onResponse (h : Inv quiet s) (id : RequestId) (status : ResponseStatusCode)
    (extensions : List Extension) : Brings quiet (Moves s) (onResponse id status extensions s) calls := by
  refine Meets.get (Meets.modify ?_)
  unfold Prog.when
  refine Meets.ite (fun hanswered => Meets.modify ?_) fun hignored => ?_
  · have hmoves : Moves s (note (.progress (s.activeCallback id) status)
        (s.setRequests (s.requests.onResponse id status).1)) := by
      refine ⟨⟨List.prefix_append _ _, fun j hj => .inl ⟨?_, rfl⟩⟩, rfl⟩
      show (s.requests.onResponse id status).1.rejectedRequests.contains j = true
      rw [onResponse_rejected]
      exact hj
    exact brings_call (inv_onResponse h id status hanswered) fun t _ ht => hmoves.trans ht
  · rw [onResponse_ignored hignored]
    exact ⟨h, Moves.refl s⟩

/-- The ids start again when no rejected request is left. -/
theorem inv_resetRejectedIds (h : Inv quiet s) :
    Inv quiet (resetRejectedIds s) ∧ Moves s (resetRejectedIds s) := by
  unfold resetRejectedIds
  by_cases hempty : s.requests.rejectedRequests.isEmpty = true
  · rw [if_pos hempty]
    refine ⟨?_, ⟨List.prefix_refl _, fun id hid => .inl ⟨hid, rfl⟩⟩, rfl⟩
    refine h.shrink (List.Subperm.refl _) rfl rfl (fun id hid => ⟨hid, rfl⟩) (fun id hid => ?_) (le_refl 0)
    rw [(OrdMap.isEmpty_iff _).mp hempty] at hid
    exact absurd hid Bool.false_ne_true
  · rw [if_neg hempty]
    exact ⟨h, Moves.refl s⟩

theorem brings_notifyRejected (h : Inv quiet s) :
    Brings quiet (Moves s) (notifyRejected s) calls := by
  refine Meets.get ?_
  unfold Prog.when
  refine Meets.ite (fun _ => Meets.modify ?_) fun _ => ⟨h, Moves.refl s⟩
  have hfirst : Inv quiet { s with scheduled := s.scheduled - 1 } :=
    h.shrink (List.Subperm.refl _) rfl rfl (fun id hid => ⟨hid, rfl⟩) (fun id hid => ⟨hid, rfl, rfl⟩) h.current
  refine Meets.seq ((brings_cancelRejected hfirst).mono ?_)
  rintro - y ⟨hinv, hmoves, -⟩
  have hreset := inv_resetRejectedIds hinv
  have hmoves' : Moves s y.1 := ⟨⟨hmoves.log, hmoves.rejected⟩, hmoves.detached⟩
  exact ⟨hreset.1, hmoves'.trans hreset.2⟩

/-- No map that was taken out has a request with the ticket; and an active request has a negative id
only after all the ids of an `int32_t` have been in use at once. -/
def Quiet (s : RequestTable) : Op → Prop
  | .unsubscribe ticket => (∀ r ∈ s.detached, .made r ticket ∉ s.log) ∧
      (ticket < 0 → s.requests.activeRequests.contains ticket = false)
  | _ => True

instance (s : RequestTable) (o : Op) : Decidable (s.Quiet o) := by
  cases o <;> unfold Quiet <;> infer_instance

/-- What is left in the tables does not have the ticket. -/
theorem unsubscribe_clears (h : Inv quiet s) {ticket : RequestId} (hq : s.Quiet (.unsubscribe ticket)) :
    ∀ r ∈ (s.setRequests (s.requests.unsubscribe ticket).1).kept, .made r ticket ∉ s.log := by
  have hactive (id : RequestId)
      (hid : (s.requests.unsubscribe ticket).1.activeRequests.contains id = true) :
      id ≠ ticket ∧ s.requests.activeRequests.contains id = true := by
    unfold LocalRequests.unsubscribe at hid
    by_cases hneg : ticket < 0
    · rw [if_pos hneg] at hid
      refine ⟨?_, hid⟩
      rintro rfl
      exact Bool.false_ne_true ((hq.2 hneg).symm.trans hid)
    rw [if_neg hneg] at hid
    by_cases hnone : s.requests.activeRequests.contains ticket = false
    · rw [if_pos hnone] at hid
      refine ⟨?_, hid⟩
      rintro rfl
      exact Bool.false_ne_true (hnone.symm.trans hid)
    · rw [if_neg hnone, OrdMap.contains_erase, Bool.and_eq_true] at hid
      exact ⟨by simpa using hid.1, hid.2⟩
  have hrejected (id : RequestId)
      (hid : (s.requests.unsubscribe ticket).1.rejectedRequests.contains id = true) :
      id ≠ ticket ∧ s.requests.rejectedRequests.contains id = true := by
    unfold LocalRequests.unsubscribe at hid
    by_cases hneg : ticket < 0
    · rw [if_pos hneg, OrdMap.contains_erase, Bool.and_eq_true] at hid
      exact ⟨by simpa using hid.1, hid.2⟩
    · have hid' : s.requests.rejectedRequests.contains id = true := by
        rw [if_neg hneg] at hid
        split at hid <;> exact hid
      refine ⟨?_, hid'⟩
      rintro rfl
      exact hneg (h.rejectedRange id hid').2
  intro r hr hmade
  rcases List.mem_append.mp hr with hr | hr
  · rcases List.mem_append.mp hr with hr | hr
    · obtain ⟨id, hid, rfl⟩ := List.mem_map.mp hr
      obtain ⟨hne, hs⟩ := hactive id ((OrdMap.mem_keys_iff_contains _ _).mp hid)
      exact hne (h.logged.ticket_unique _ _ _ (h.activeTicket id hs) hmade)
    · obtain ⟨id, hid, rfl⟩ := List.mem_map.mp hr
      obtain ⟨hne, hs⟩ := hrejected id ((OrdMap.mem_keys_iff_contains _ _).mp hid)
      exact hne (h.logged.ticket_unique _ _ _ (h.rejectedTicket id hs) hmade)
  · exact hq.1 r hr hmade

theorem unsubscribe_tables (l : LocalRequests) (ticket : RequestId) :
    (l.unsubscribe ticket).1.currentRejectedRequestId = l.currentRejectedRequestId ∧
      ((l.unsubscribe ticket).1.activeRequests = l.activeRequests ∨
        (l.unsubscribe ticket).1.activeRequests = l.activeRequests.erase ticket) ∧
      ((l.unsubscribe ticket).1.rejectedRequests = l.rejectedRequests ∨
        (l.unsubscribe ticket).1.rejectedRequests = l.rejectedRequests.erase ticket) := by
  unfold LocalRequests.unsubscribe
  split
  · exact ⟨rfl, .inl rfl, .inr rfl⟩
  · split
    · exact ⟨rfl, .inl rfl, .inl rfl⟩
    · exact ⟨rfl, .inr rfl, .inl rfl⟩

theorem inv_unsubscribe (h : Inv quiet s) {ticket : RequestId} (hq : quiet → s.Quiet (.unsubscribe ticket)) :
    Inv quiet (note (.unsubscribed ticket) (s.setRequests (s.requests.unsubscribe ticket).1)) := by
  obtain ⟨hids, hactive, hrejected⟩ := unsubscribe_tables s.requests ticket
  have herase {m n : OrdMap RequestId Unit} (hm : m = n ∨ m = n.erase ticket) :
      m.keys.Sublist n.keys ∧ ∀ id, m.contains id = true → n.contains id = true := by
    rcases hm with rfl | rfl
    · exact ⟨List.Sublist.refl _, fun _ hid => hid⟩
    · refine ⟨OrdMap.keys_erase_sublist n ticket, fun id hid => ?_⟩
      rw [OrdMap.contains_erase, Bool.and_eq_true] at hid
      exact hid.2
  have hrest : Inv quiet (s.setRequests (s.requests.unsubscribe ticket).1) := by
    refine h.shrink (List.Sublist.subperm ?_) rfl rfl (fun id hid => ⟨(herase hactive).2 id hid, rfl⟩)
      (fun id hid => ⟨(herase hrejected).2 id hid, rfl, hids⟩) (hids.trans_le h.current)
    exact (((herase hactive).1.map _).append ((herase hrejected).1.map _)).append (List.Sublist.refl _)
  exact hrest.unsubscribed fun hquiet => unsubscribe_clears h (hq hquiet)

theorem moves_unsubscribe (s : RequestTable) (ticket : RequestId) :
    Moves s (note (.unsubscribed ticket) (s.setRequests (s.requests.unsubscribe ticket).1)) := by
  refine ⟨⟨List.prefix_append _ _, fun id hid => ?_⟩, rfl⟩
  by_cases hticket : id = ticket
  · exact .inr (.inl ⟨[.unsubscribed ticket], rfl, by simp [hticket]⟩)
  · refine .inl ⟨?_, rfl⟩
    show (s.requests.unsubscribe ticket).1.rejectedRequests.contains id = true
    rcases (unsubscribe_tables s.requests ticket).2.2 with hsame | herased
    · rw [hsame]
      exact hid
    · rw [herased, OrdMap.contains_erase]
      simp [hticket, hid]

theorem brings_unsubscribe (h : Inv quiet s) {ticket : RequestId}
    (hq : quiet → s.Quiet (.unsubscribe ticket)) :
    Brings quiet (Moves s) (unsubscribe ticket s) calls := by
  have hinv := inv_unsubscribe h hq
  have hmoves := moves_unsubscribe s ticket
  refine Meets.get (Meets.modify (Meets.modify ?_))
  cases (s.requests.unsubscribe ticket).2 with
  | none => exact ⟨hinv, hmoves⟩
  | some cancelled => exact brings_call hinv fun t _ ht => hmoves.trans ht

/-- Whatever is called, the tables keep their invariant and the maps taken out are left alone. -/
theorem brings_op (h : Inv quiet s) {o : Op} (hq : quiet → s.Quiet o) :
    Brings quiet (Moves s) (op o s) calls := by
  cases o with
  | newRequest g rootCid selector extensions => exact brings_newRequest h g rootCid selector extensions
  | newRejectedRequest => exact brings_newRejectedRequest h
  | onResponse id status extensions => exact brings_onResponse h id status extensions
  | unsubscribe ticket => exact brings_unsubscribe h hq
  | notifyRejected => exact brings_notifyRejected h
  | cancelAll => exact (brings_cancelAll h).mono fun _ y hy => ⟨hy.1, hy.2.1⟩

end

/-! ## Runs -/

/-- Every move of the run that uses the tables is quiet. -/
def QuietMove (c : Config RequestTable Call) : Move Op → Prop
  | .invoke o => c.state.Quiet o
  | .ret => True

instance (c : Config RequestTable Call) (m : Move Op) : Decidable (QuietMove c m) := by
  cases m <;> unfold QuietMove <;> infer_instance

theorem inv_run {quiet : Prop} {ms : List (Move Op)} {c : Config RequestTable Call}
    (hquiet : quiet → Runs.EveryStep step QuietMove (Config.start initial) ms)
    (hr : Runs.run step (Config.start initial) ms = some c) : Inv quiet c.state := by
  have hsteps : Runs.EveryStep step (fun d m => quiet → QuietMove d m) (Config.start initial) ms := by
    by_cases hq : quiet
    · exact Runs.everyStep_of_invariant (fun _ => True) (fun _ _ _ _ _ _ => trivial)
        (fun _ _ _ hd _ => hd) trivial (hquiet hq)
    · exact Runs.everyStep_of_invariant (fun _ => True) (fun _ _ _ _ _ _ => trivial)
        (fun _ _ _ _ hq' => absurd hq' hq) trivial (Runs.everyStep_true _ ms)
  have hsound := Sound.run (R := TableRely quiet) (V := fun _ y => Inv quiet y.1) (TableRely.refl quiet)
    (fun _ _ _ => TableRely.trans) (fun _ _ _ hx hxy => (hxy hx).1) ?_ (.start (inv_initial quiet)) hsteps hr
  · exact hsound.valid
  · intro d o hd _ hV
    refine (brings_op hV hd).mono fun _ y hy => ?_
    cases hp : d.pending with
    | nil => exact hy.1
    | cons e rest => exact fun _ => hy

/-- The request is kept under the id, to be answered or to be told of its rejection. -/
def Pending (s : RequestTable) (id : RequestId) (r : ℕ) : Prop :=
  s.requests.activeRequests.contains id = true ∧ s.activeCallback id = r ∨
    s.requests.rejectedRequests.contains id = true ∧ s.rejectedCallback id = r

instance (s : RequestTable) (id : RequestId) (r : ℕ) : Decidable (s.Pending id r) :=
  inferInstanceAs (Decidable (_ ∨ _))

/-- What has been logged since `s`. -/
def newEvents (s t : RequestTable) : List RequestEvent := t.log.drop s.log.length

theorem Since.mem_newEvents {s t : RequestTable} {e : RequestEvent} (h : Since s t e) :
    e ∈ newEvents s t := by
  obtain ⟨added, hlog, he⟩ := h
  rw [newEvents, hlog, List.drop_left]
  exact he

theorem told_of_completes {c c' : Config RequestTable Call} {ms : List (Move Op)}
    (hinv : Inv False c.state) (h : Config.Completes op enabled .cancelAll c ms c') :
    Told c.state c'.state := by
  have hQ : Inv False c'.state ∧ Moves c.state c'.state ∧ Told c.state c'.state := by
    refine Config.Completes.rule (R := TableRely False) (V := fun _ y => Inv False y.1)
      (Q := fun y => Inv False y.1 ∧ Moves c.state y.1 ∧ Told c.state y.1) (TableRely.refl False)
      (fun _ _ _ => TableRely.trans) (fun _ _ _ hx hxy => (hxy hx).1) ?_ ?_ ?_ h
    · rintro x y ⟨hx, hmoves, hactive, hrejected⟩ hxy
      obtain ⟨hy, hlater⟩ := hxy hx
      refine ⟨hy, hmoves.trans hlater, fun id hid => (hactive id hid).later hlater.log, fun id hid => ?_⟩
      exact (hrejected id hid).imp (fun h => h.later hlater.log) fun h => h.later hlater.log
    · exact brings_cancelAll hinv
    · intro d o _ hV
      exact (brings_op hV False.elim).mono fun _ y hy _ => hy
  exact hQ.2.2

/-- **One final word.** In every run, however the calls are nested, a callback gets at most one
terminal status and nothing after it; and a `cancelAll` that has come to its end has told each
request that was there when it began once that it is rejected, unless its ticket was cancelled. -/
theorem one_final_word {ms : List (Move Op)} {c : Config RequestTable Call}
    (hr : Runs.run step (Config.start initial) ms = some c) :
    (∀ r, SilentAfter (Ends r) (IsProgress r) c.state.log) ∧
      ∀ (inner : List (Move Op)) (c' : Config RequestTable Call),
        Config.Completes op enabled .cancelAll c inner c' → ∀ id r, c.state.Pending id r →
          .unsubscribed id ∈ newEvents c.state c'.state ∨
            (newEvents c.state c'.state).count (.progress r .rejectedLocally) = 1 := by
  have hinv : Inv False c.state := inv_run False.elim hr
  refine ⟨hinv.logged.final, fun inner c' hcompletes id r hpending => ?_⟩
  have htold := told_of_completes hinv hcompletes
  have hr' : Runs.run step (Config.start initial) (ms ++ .invoke .cancelAll :: inner) = some c' := by
    rw [Runs.run_append, hr]
    exact hcompletes.run
  have hinv' : Inv False c'.state := inv_run False.elim hr'
  have hmost : c'.state.log.count (.progress r .rejectedLocally) ≤ 1 :=
    (hinv'.logged.final r).count_le_one (fun _ => ⟨rfl, rfl⟩) rfl
  have hsublist : (newEvents c.state c'.state).Sublist c'.state.log := List.drop_sublist _ _
  have honce (h : Since c.state c'.state (.progress r .rejectedLocally)) :
      (newEvents c.state c'.state).count (.progress r .rejectedLocally) = 1 := by
    have hleast := List.count_pos_iff.mpr h.mem_newEvents
    have hle := hsublist.count_le (.progress r .rejectedLocally)
    omega
  rcases hpending with ⟨hid, rfl⟩ | ⟨hid, rfl⟩
  · exact .inr (honce (htold.1 id hid))
  · exact (htold.2 id hid).imp Since.mem_newEvents honce

/-- **Cancelled means silent** in every run in which no ticket is cancelled while a `cancelAll` has
the callback in hand. -/
theorem cancelled_silent {ms : List (Move Op)} {c : Config RequestTable Call}
    (hquiet : Runs.EveryStep step QuietMove (Config.start initial) ms)
    (hr : Runs.run step (Config.start initial) ms = some c) (r : ℕ) :
    SilentAfter (Cancels r) (IsProgress r) c.state.log :=
  (inv_run (fun _ => hquiet) hr).logged.silent trivial r

/-! ## Requests that are rejected together -/

/-- Two rejected requests. -/
def rejectedPair : List (Move Op) := [.invoke .newRejectedRequest, .invoke .newRejectedRequest]

def rejectedTable : Config RequestTable Call := Runs.last step (Config.start initial) rejectedPair

/-- The callback that is called first answers, makes a request, and calls `cancelAll` again. -/
def busyCallback : List (Move Op) :=
  [.invoke (.onResponse 1 .fullContent []), .invoke .newRejectedRequest, .invoke .cancelAll, .ret, .ret, .ret]

def cancelledTable : Config RequestTable Call :=
  Runs.last step (Config.settle rejectedTable.frames rejectedTable.calls (cancelAll rejectedTable.state))
    busyCallback

theorem rejected_pair_told :
    (∀ r, SilentAfter (Ends r) (IsProgress r) rejectedTable.state.log) ∧
      (.unsubscribed (-1) ∈ newEvents rejectedTable.state cancelledTable.state ∨
        (newEvents rejectedTable.state cancelledTable.state).count (.progress 0 .rejectedLocally) = 1) := by
  have hrun : Runs.run step (Config.start initial) rejectedPair = some rejectedTable :=
    Runs.run_last (by decide +kernel)
  have hcompletes : Config.Completes op enabled .cancelAll rejectedTable busyCallback cancelledTable :=
    ⟨Runs.run_last (by decide +kernel), by decide +kernel, by decide +kernel⟩
  have hword := one_final_word hrun
  exact ⟨hword.1, hword.2 busyCallback cancelledTable hcompletes (-1) 0 (by decide +kernel)⟩

/-- The ticket of the second request is cancelled, then the first is told of its rejection. -/
def cancelledInTime : List (Move Op) :=
  rejectedPair ++ [.invoke (.unsubscribe (-2)), .invoke .notifyRejected, .ret]

theorem cancelled_in_time_silent :
    SilentAfter (Cancels 1) (IsProgress 1) (Runs.last step (Config.start initial) cancelledInTime).state.log :=
  cancelled_silent (by decide +kernel) (Runs.run_last (by decide +kernel)) 1

/-- While one of them is told, the other one's ticket is cancelled. -/
def cancelledMeanwhile (o : Op) : List (Move Op) :=
  rejectedPair ++ [.invoke o, .invoke (.unsubscribe (-1)), .ret, .ret]

theorem not_silent {log : List RequestEvent} (h : log = [.made 0 (-1), .made 1 (-2),
    .progress 1 .rejectedLocally, .unsubscribed (-1), .progress 0 .rejectedLocally]) :
    ¬SilentAfter (Cancels 0) (IsProgress 0) log := by
  intro hsilent
  refine hsilent [.made 0 (-1), .made 1 (-2), .progress 1 .rejectedLocally] (.unsubscribed (-1))
    [.progress 0 .rejectedLocally] h ?_ _ List.mem_cons_self rfl
  exact List.mem_cons_self

/-- It is called all the same, under the notification as under `cancelAll`. -/
theorem cancelled_meanwhile_called :
    (∃ c, Runs.run step (Config.start initial) (cancelledMeanwhile .notifyRejected) = some c ∧
      ¬SilentAfter (Cancels 0) (IsProgress 0) c.state.log) ∧
    ∃ c, Runs.run step (Config.start initial) (cancelledMeanwhile .cancelAll) = some c ∧
      ¬SilentAfter (Cancels 0) (IsProgress 0) c.state.log :=
  ⟨⟨_, Runs.run_last (by decide +kernel), not_silent (by decide +kernel)⟩,
    ⟨_, Runs.run_last (by decide +kernel), not_silent (by decide +kernel)⟩⟩

end IpfsLite.Graphsync.RequestTable
