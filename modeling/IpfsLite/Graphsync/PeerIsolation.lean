import IpfsLite.Graphsync.Responder

/-! # What one peer sees of another

A run is compared with the run from which every remote request of the other peers is deleted. The
table of status holders is keyed by the request id alone, so the two runs send peer `A` the same
only where no verdict for `A` and no removal of `A`'s holders crosses peers under one id. -/
namespace IpfsLite.Graphsync.Responder
set_option autoImplicit false

variable {Q : Type}

/-- What the node sent to `A`, in order. -/
def sentTo (A : PeerId) (s : State Q) : List Output := s.out.filter fun o => o.peer = A

/-- The events that are left when the other peers' requests are deleted. -/
def Action.concerns (W : Workload Q) (A : PeerId) : Action Q → Bool
  | .accept q => W.peer q = A
  | .call q _ => W.peer q = A
  | .drop p _ => p = A
  | .advance q _ => W.peer q = A
  | .stop _ => true
  | .destroy _ => true

/-- `A` was sent the same, and its requests are at the same point. -/
def SeesTheSame (W : Workload Q) (A : PeerId) (s t : State Q) : Prop :=
  sentTo A t = sentTo A s ∧ ∀ q k, W.peer q = A → t.pc (q, k) = s.pc (q, k)

def belongsTo (W : Workload Q) (A : PeerId) (h : Q × ℕ) : Bool := W.peer h.1 = A

/-- The step reads no other peer's holder for `A`, and removes none of `A`'s for another peer. -/
def Separate (W : Workload Q) (A : PeerId) (s : State Q) : Action Q → Prop
  | .advance q k =>
    (W.peer q = A → s.pc (q, k) = .checking →
      ∀ h ∈ s.gen.requestHolders (W.id q), belongsTo W A h = true) ∧
    (W.peer q ≠ A → s.pc (q, k) = .forgetting →
      ∀ h ∈ s.gen.requestHolders (W.id q), belongsTo W A h = false)
  | _ => True

instance [DecidableEq Q] (W : Workload Q) (A : PeerId) (s : State Q) :
    ∀ a, Decidable (Separate W A s a)
  | .advance _ _ => inferInstanceAs (Decidable (_ ∧ _))
  | .accept _ | .call _ _ | .drop _ _ | .stop _ | .destroy _ => .isTrue trivial

/-- `t` is `s` as far as `A` is concerned, and has nothing of the other peers. -/
structure Agrees (W : Workload Q) (A : PeerId) (s t : State Q) : Prop where
  gen : s.gen.Restricts (belongsTo W A) t.gen
  pc : ∀ q k, W.peer q = A → t.pc (q, k) = s.pc (q, k)
  arrived : ∀ q, W.peer q = A → t.arrived q = s.arrived q
  calling : t.calling A = s.calling A
  sink : t.sink A = s.sink A
  started : t.started = s.started
  alive : t.alive = s.alive
  out : t.out = sentTo A s

namespace Agrees
variable {W : Workload Q} {A : PeerId} {s t : State Q}

theorem initial : Agrees W A (initial (Q := Q)) Responder.initial :=
  ⟨⟨fun _ => rfl, fun _ _ => rfl⟩, fun _ _ _ => rfl, fun _ _ => rfl, rfl, rfl, rfl, rfl, rfl⟩

theorem setGen (h : Agrees W A s t) {g k : RequestIdGenerator (Q × ℕ)}
    (hg : g.Restricts (belongsTo W A) k) :
    Agrees W A (setGen s g) (Responder.setGen t k) := { h with gen := hg }

theorem setGen_left (h : Agrees W A s t) {g : RequestIdGenerator (Q × ℕ)}
    (hg : g.Restricts (belongsTo W A) t.gen) : Agrees W A (Responder.setGen s g) t :=
  { h with gen := hg }

theorem emit (h : Agrees W A s t) {o : Output} (ho : o.peer = A) :
    Agrees W A (emit s o) (Responder.emit t o) := by
  refine { h with out := ?_ }
  simp [Responder.emit, sentTo, h.out, ho]

theorem emit_left (h : Agrees W A s t) {o : Output} (ho : o.peer ≠ A) :
    Agrees W A (Responder.emit s o) t := by
  refine { h with out := ?_ }
  simp [Responder.emit, sentTo, h.out, ho]

theorem sendResponse (h : Agrees W A s t) (id : RequestId) (status : ResponseStatusCode)
    (extensions : List Extension) :
    Agrees W A (sendResponse s A id status extensions)
      (Responder.sendResponse t A id status extensions) := by
  unfold Responder.sendResponse
  rw [h.sink]
  by_cases hs : s.sink A id
  · simp only [hs, if_true]
    exact h.emit rfl
  · simp only [hs]
    exact h

theorem sendResponse_left (h : Agrees W A s t) {p : PeerId} (hp : p ≠ A) (id : RequestId)
    (status : ResponseStatusCode) (extensions : List Extension) :
    Agrees W A (Responder.sendResponse s p id status extensions) t := by
  unfold Responder.sendResponse
  by_cases hs : s.sink p id
  · simp only [hs, if_true]
    exact h.emit_left hp
  · simp only [hs]
    exact h

theorem setSink (h : Agrees W A s t) (id : RequestId) (isOpen : Bool) :
    Agrees W A (setSink s A id isOpen) (Responder.setSink t A id isOpen) := by
  refine { h with sink := ?_ }
  simp [Responder.setSink, h.sink]

theorem setSink_left (h : Agrees W A s t) {p : PeerId} (hp : p ≠ A) (id : RequestId)
    (isOpen : Bool) : Agrees W A (Responder.setSink s p id isOpen) t := by
  refine { h with sink := ?_ }
  simp [Responder.setSink, Function.update_of_ne hp.symm, h.sink]

theorem setCalling (h : Agrees W A s t) (q : Q) (k : ℕ) :
    Agrees W A (setCalling W s A q k) (Responder.setCalling W t A q k) := by
  refine { h with calling := ?_ }
  simp [Responder.setCalling]

theorem setCalling_left (h : Agrees W A s t) {p : PeerId} (hp : p ≠ A) (q : Q) (k : ℕ) :
    Agrees W A (Responder.setCalling W s p q k) t := by
  refine { h with calling := ?_ }
  simp [Responder.setCalling, Function.update_of_ne hp.symm, h.calling]

theorem locked (h : Agrees W A s t) {q : Q} (hq : W.peer q = A) {ns nt s' : State Q}
    (hn : Agrees W A ns nt) (hs : locked W s q ns = some s') :
    ∃ t', Responder.locked W t q nt = some t' ∧ Agrees W A s' t' := by
  obtain ⟨hfree, hnext⟩ := locked_some hs
  have hfree' : t.calling (W.peer q) = none := by
    rw [hq, h.calling, ← hq, hfree]
  exact ⟨nt, if_pos hfree', hnext ▸ hn⟩

variable [DecidableEq Q]

theorem setPc (h : Agrees W A s t) (q : Q) (k : ℕ) (pc : TaskPc) :
    Agrees W A (setPc s q k pc) (Responder.setPc t q k pc) := by
  refine { h with pc := fun r j hr => ?_ }
  by_cases he : (r, j) = (q, k)
  · simp [Responder.setPc, he]
  · simp [Responder.setPc, Function.update_of_ne he, h.pc r j hr]

theorem setPc_left (h : Agrees W A s t) {q : Q} (hq : W.peer q ≠ A) (k : ℕ) (pc : TaskPc) :
    Agrees W A (Responder.setPc s q k pc) t := by
  refine { h with pc := fun r j hr => ?_ }
  have he : (r, j) ≠ (q, k) := by
    intro he
    rw [Prod.mk.injEq] at he
    exact hq (he.1 ▸ hr)
  simp [Responder.setPc, Function.update_of_ne he, h.pc r j hr]

theorem markArrived (h : Agrees W A s t) (q : Q) :
    Agrees W A (markArrived s q) (Responder.markArrived t q) := by
  refine { h with arrived := fun r hr => ?_ }
  by_cases he : r = q
  · simp [Responder.markArrived, he]
  · simp [Responder.markArrived, Function.update_of_ne he, h.arrived r hr]

theorem markArrived_left (h : Agrees W A s t) {q : Q} (hq : W.peer q ≠ A) :
    Agrees W A (Responder.markArrived s q) t := by
  refine { h with arrived := fun r hr => ?_ }
  have he : r ≠ q := by
    intro he
    exact hq (he ▸ hr)
  simp [Responder.markArrived, Function.update_of_ne he, h.arrived r hr]

end Agrees

/-! ## One step -/

variable [DecidableEq Q] {W : Workload Q} {A : PeerId} {s s' t : State Q} {q : Q} {k : ℕ}

theorem Agrees.accept (h : Agrees W A s t) (hq : W.peer q = A) (hs : accept W s q = some s') :
    ∃ t', Responder.accept W t q = some t' ∧ Agrees W A s' t' := by
  unfold Responder.accept at hs ⊢
  rw [h.arrived q hq, hq, h.sink, h.calling]
  rw [hq] at hs
  by_cases hno : s.arrived q = true ∨ s.calling A ≠ none
  · rw [if_pos hno] at hs
    exact absurd hs (Option.some_ne_none s').symm
  rw [if_neg hno] at hs ⊢
  by_cases hsink : s.sink A (W.id q) = true
  · rw [if_pos hsink] at hs ⊢
    exact ⟨_, rfl, Option.some.inj hs ▸ (h.markArrived q).sendResponse _ _ _⟩
  · rw [if_neg hsink] at hs ⊢
    exact ⟨_, rfl, Option.some.inj hs ▸ ((h.markArrived q).setSink _ _).setCalling q 0⟩

theorem Agrees.accept_left (h : Agrees W A s t) (hq : W.peer q ≠ A)
    (hs : Responder.accept W s q = some s') : Agrees W A s' t := by
  unfold Responder.accept at hs
  by_cases hno : s.arrived q = true ∨ s.calling (W.peer q) ≠ none
  · rw [if_pos hno] at hs
    exact absurd hs (Option.some_ne_none s').symm
  rw [if_neg hno] at hs
  by_cases hsink : s.sink (W.peer q) (W.id q) = true
  · rw [if_pos hsink] at hs
    exact Option.some.inj hs ▸ (h.markArrived_left hq).sendResponse_left hq _ _ _
  · rw [if_neg hsink] at hs
    exact Option.some.inj hs ▸ ((h.markArrived_left hq).setSink_left hq _ _).setCalling_left hq q 0

theorem Agrees.call (h : Agrees W A s t) (hq : W.peer q = A) (hs : call W s q k = some s') :
    ∃ t', Responder.call W t q k = some t' ∧ Agrees W A s' t' := by
  have hmine : belongsTo W A (q, k) = true := by simp [belongsTo, hq]
  unfold Responder.call at hs ⊢
  rw [hq, h.calling, h.started]
  rw [hq] at hs
  by_cases hno : s.calling A ≠ some (q, k)
  · rw [if_pos hno] at hs
    exact absurd hs (Option.some_ne_none s').symm
  rw [if_neg hno] at hs ⊢
  by_cases hst : s.started (W.inst q k) = true
  · rw [if_pos hst] at hs ⊢
    have hgen := h.gen.registerStatus hmine (W.id q)
    exact ⟨_, rfl, Option.some.inj hs ▸ ((h.setGen hgen).setPc q k _).setCalling q (k + 1)⟩
  · rw [if_neg hst] at hs ⊢
    exact ⟨_, rfl, Option.some.inj hs ▸ (h.setPc q k _).setCalling q (k + 1)⟩

theorem Agrees.call_left (h : Agrees W A s t) (hq : W.peer q ≠ A)
    (hs : Responder.call W s q k = some s') : Agrees W A s' t := by
  have hother : belongsTo W A (q, k) = false := by simp [belongsTo, hq]
  unfold Responder.call at hs
  by_cases hno : s.calling (W.peer q) ≠ some (q, k)
  · rw [if_pos hno] at hs
    exact absurd hs (Option.some_ne_none s').symm
  rw [if_neg hno] at hs
  by_cases hst : s.started (W.inst q k) = true
  · rw [if_pos hst] at hs
    have hgen := h.gen.registerStatus_left hother (W.id q)
    exact Option.some.inj hs ▸ ((h.setGen_left hgen).setPc_left hq k _).setCalling_left hq q (k + 1)
  · rw [if_neg hst] at hs
    exact Option.some.inj hs ▸ (h.setPc_left hq k _).setCalling_left hq q (k + 1)

theorem Agrees.advance (h : Agrees W A s t) (hq : W.peer q = A)
    (hok : Separate W A s (.advance q k)) (hs : advance W s q k = some s') :
    ∃ t', Responder.advance W t q k = some t' ∧ Agrees W A s' t' := by
  have hmine : belongsTo W A (q, k) = true := by simp [belongsTo, hq]
  unfold Responder.advance at hs ⊢
  rw [h.pc q k hq, h.started, h.alive, hq, h.sink]
  rw [hq] at hs
  cases hpc : s.pc (q, k) with
  | absent =>
    rw [hpc] at hs
    exact absurd hs (Option.some_ne_none s').symm
  | posted =>
    simp only [hpc] at hs ⊢
    by_cases hal : (!s.alive (W.inst q k)) = true
    · rw [if_pos hal] at hs ⊢
      exact ⟨_, rfl, Option.some.inj hs ▸ h.setPc q k _⟩
    rw [if_neg hal] at hs ⊢
    by_cases hst : (!s.started (W.inst q k)) = true
    · rw [if_pos hst] at hs ⊢
      exact ⟨_, rfl, Option.some.inj hs ▸ (h.setGen (h.gen.removeStatus _ _)).setPc q k _⟩
    · rw [if_neg hst] at hs ⊢
      exact h.locked hq (h.setPc q k _) hs
  | selecting rest =>
    cases rest with
    | nil =>
      simp only [hpc] at hs ⊢
      rcases hres : (W.lookup q k).result with _ | _ | n
      all_goals
        simp only [hres] at hs ⊢
        exact ⟨_, rfl, Option.some.inj hs ▸ (h.setGen (h.gen.setStatus (q, k) _)).setPc q k _⟩
    | cons b rest =>
      simp only [hpc] at hs ⊢
      by_cases hb : b.2.isEmpty = true
      · rw [if_pos hb] at hs ⊢
        exact ⟨_, rfl, Option.some.inj hs ▸ h.setPc q k _⟩
      rw [if_neg hb] at hs ⊢
      by_cases hsink : s.sink A (W.id q) = true
      · rw [if_pos hsink] at hs ⊢
        exact h.locked hq ((h.emit rfl).setPc q k _) hs
      · rw [if_neg hsink] at hs ⊢
        exact h.locked hq (h.setPc q k _) hs
  | refused =>
    simp only [hpc] at hs ⊢
    exact ⟨_, rfl, Option.some.inj hs ▸ (h.setGen (h.gen.setStatus (q, k) _)).setPc q k _⟩
  | removing =>
    simp only [hpc] at hs ⊢
    exact ⟨_, rfl, Option.some.inj hs ▸ (h.setGen (h.gen.removeStatus _ _)).setPc q k _⟩
  | checking =>
    simp only [hpc] at hs ⊢
    rw [h.gen.allStatusesNotFound_eq (hok.1 hq hpc)]
    by_cases hall : s.gen.allStatusesNotFound (W.id q) = true
    · rw [if_pos hall] at hs ⊢
      exact ⟨_, rfl, Option.some.inj hs ▸ h.setPc q k _⟩
    · rw [if_neg hall] at hs ⊢
      exact ⟨_, rfl, Option.some.inj hs ▸ h.setPc q k _⟩
  | answering status =>
    simp only [hpc] at hs ⊢
    by_cases hst : s.started (W.inst q k) = true
    · rw [if_pos hst] at hs ⊢
      exact h.locked hq ((h.sendResponse _ _ _).setPc q k _) hs
    · rw [if_neg hst] at hs ⊢
      exact h.locked hq (h.setPc q k _) hs
  | forgetting =>
    simp only [hpc] at hs ⊢
    exact ⟨_, rfl, Option.some.inj hs ▸ (h.setGen (h.gen.removeRequest _)).setPc q k _⟩
  | finished =>
    rw [hpc] at hs
    exact absurd hs (Option.some_ne_none s').symm

theorem Agrees.advance_left (h : Agrees W A s t) (hq : W.peer q ≠ A)
    (hok : Separate W A s (.advance q k)) (hs : Responder.advance W s q k = some s') :
    Agrees W A s' t := by
  have hother : belongsTo W A (q, k) = false := by simp [belongsTo, hq]
  cases taskStep_of_advance hs with
  | gone | begins | skipped | refuses | verdict | undecided | unanswered => exact h.setPc_left hq k _
  | late | removed => exact (h.setGen_left (h.gen.removeStatus_left hother _)).setPc_left hq k _
  | @passed b =>
    have ho : (Output.block (W.peer q) (W.id q) b).peer ≠ A := hq
    exact (h.emit_left ho).setPc_left hq k _
  | failed | missing | found | refused =>
    exact (h.setGen_left (h.gen.setStatus_left hother _)).setPc_left hq k _
  | answered => exact (h.sendResponse_left hq _ _ _).setPc_left hq k _
  | forgotten hpc =>
    exact (h.setGen_left (h.gen.removeRequest_left (hok.2 hq hpc))).setPc_left hq k _

/-- A step of `A`'s is matched in the run without the others. -/
theorem Agrees.step_kept {a : Action Q} (h : Agrees W A s t) (hok : Separate W A s a)
    (hk : a.concerns W A = true) (hs : step W s a = some s') :
    ∃ t', step W t a = some t' ∧ Agrees W A s' t' := by
  cases a with
  | accept q => exact h.accept (of_decide_eq_true hk) hs
  | call q k => exact h.call (of_decide_eq_true hk) hs
  | advance q k => exact h.advance (of_decide_eq_true hk) hok hs
  | drop p id =>
    have hp : p = A := of_decide_eq_true hk
    subst hp
    unfold step at hs ⊢
    simp only [h.calling] at hs ⊢
    by_cases hfree : s.calling p = none
    · rw [if_pos hfree] at hs ⊢
      exact ⟨_, rfl, Option.some.inj hs ▸ h.setSink id false⟩
    · rw [if_neg hfree] at hs
      exact absurd hs (Option.some_ne_none s').symm
  | stop i =>
    refine ⟨_, rfl, Option.some.inj hs ▸ { h with started := ?_ }⟩
    simp only [h.started]
  | destroy i =>
    refine ⟨_, rfl, Option.some.inj hs ▸ { h with alive := ?_ }⟩
    simp only [h.alive]

/-- A step of another peer's goes unnoticed. -/
theorem Agrees.step_left {a : Action Q} (h : Agrees W A s t) (hok : Separate W A s a)
    (hk : a.concerns W A = false) (hs : step W s a = some s') : Agrees W A s' t := by
  cases a with
  | accept q => exact h.accept_left (of_decide_eq_false hk) hs
  | call q k => exact h.call_left (of_decide_eq_false hk) hs
  | advance q k => exact h.advance_left (of_decide_eq_false hk) hok hs
  | drop p id =>
    unfold step at hs
    by_cases hfree : s.calling p = none
    · simp only [hfree, if_true] at hs
      exact Option.some.inj hs ▸ h.setSink_left (of_decide_eq_false hk) id false
    · simp only [hfree, if_false] at hs
      exact absurd hs (Option.some_ne_none s').symm
  | stop i => exact absurd hk.symm Bool.false_ne_true
  | destroy i => exact absurd hk.symm Bool.false_ne_true

/-! ## Runs -/

/-- **Peers do not interfere** in a run that keeps their status holders apart: without the other
peers' requests the same events of `A` are possible, and `A` is sent the same. -/
theorem sees_the_same_of_separate (W : Workload Q) (A : PeerId) {as : List (Action Q)} {s : State Q}
    (hok : Runs.EveryStep (step W) (Separate W A) initial as) (hr : run W initial as = some s) :
    ∃ t, run W initial (as.filter (Action.concerns W A)) = some t ∧ SeesTheSame W A s t := by
  obtain ⟨t, ht, hagree⟩ := Runs.run_delete (Action.concerns W A) (Agrees W A)
    (fun _ _ a _ h ho hk hs => h.step_kept (a := a) ho hk hs)
    (fun _ _ a _ h ho hk hs => h.step_left (a := a) ho hk hs) Agrees.initial hok hr
  refine ⟨t, ht, ?_, hagree.pc⟩
  simp only [sentTo, hagree.out, List.filter_filter, Bool.and_self]

/-- Peers `q = 0, 1, …` each ask one instance for something it does not have. -/
def askingPeers (id : ℕ → RequestId) : Workload ℕ where
  peer q := q
  request q := { Message.Request.default with id := id q }
  width _ := 1
  inst _ _ := 0
  lookup _ _ := ⟨[], some 0⟩

/-- Peer 1's request is accepted while the lookup for peer 0 is under way. -/
def overlappingRun : List (Action ℕ) :=
  [.accept 0, .call 0 0, .accept 1, .call 1 0, .advance 0 0, .advance 0 0, .advance 0 0]

theorem sees_the_same_distinct_ids :
    ∃ t, run (askingPeers fun q => q + 1) initial
        (overlappingRun.filter (Action.concerns (askingPeers fun q => q + 1) 0)) = some t ∧
      SeesTheSame (askingPeers fun q => q + 1) 0
        ((run (askingPeers fun q => q + 1) initial overlappingRun).get (by decide)) t :=
  sees_the_same_of_separate _ 0 (by decide) (Option.some_get _).symm

/-- Under one id the holder of peer 1 keeps peer 0 from its `RS_NOT_FOUND`. -/
theorem shared_id_silences_peer :
    (run (askingPeers fun _ => 1) initial overlappingRun).map
        (fun s => (s.pc (0, 0), sentTo 0 s)) = some (.finished, []) ∧
      (run (askingPeers fun _ => 1) initial
          (overlappingRun.filter (Action.concerns (askingPeers fun _ => 1) 0) ++
            [.advance 0 0, .advance 0 0])).map (fun s => (s.pc (0, 0), sentTo 0 s)) =
        some (.finished, [.response 0 1 .notFound []]) := by
  decide

end IpfsLite.Graphsync.Responder
