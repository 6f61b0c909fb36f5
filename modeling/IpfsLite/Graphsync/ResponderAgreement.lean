import IpfsLite.Graphsync.Responder

/-! # One terminal response for each request

The tasks of one request seen on their own: where each stands, whether it holds a status, and the
terminal responses sent so far. In an orderly run they pass through three phases: nobody has
concluded, one task is concluding, the request is answered and forgotten. -/
namespace IpfsLite.Graphsync.Responder
set_option autoImplicit false

variable {Q : Type}

/-- The task has left its lookup with an answer to send. -/
def TaskPc.concluding : TaskPc → Bool
  | .answering _ => true
  | .forgetting => true
  | _ => false

/-- The task is under way and has not concluded. -/
def TaskPc.working : TaskPc → Bool
  | .posted => true
  | .selecting _ => true
  | .removing => true
  | .checking => true
  | _ => false

def terminalOf (p : PeerId) (id : RequestId) : Output → Option ResponseStatusCode
  | .block _ _ _ => none
  | .response p' id' status _ => if p' = p ∧ id' = id ∧ isTerminal status = true then some status else none

/-- The terminal responses passed to the `InboundEndpoint` for the request. -/
def terminalResponses (W : Workload Q) (q : Q) (s : State Q) : List ResponseStatusCode :=
  s.out.filterMap (terminalOf (W.peer q) (W.id q))

/-- Some instance of the node has the content. -/
def Workload.Found (W : Workload Q) (q : Q) : Prop := ∃ k < W.width q, (W.lookup q k).found = true

instance (W : Workload Q) (q : Q) : Decidable (W.Found q) :=
  inferInstanceAs (Decidable (∃ k < W.width q, (W.lookup q k).found = true))

/-- The response that the instances owe the peer. -/
def Workload.answer (W : Workload Q) (q : Q) : ResponseStatusCode :=
  if W.Found q then .fullContent else .notFound

/-! ## Orderly steps -/

/-- The verdict of the `k`-th task is about this request's holders only, and no other instance is
sending `RS_NOT_FOUND` at the same time. -/
def DecidesAlone (W : Workload Q) (q : Q) (s : State Q) (k : ℕ) : Prop :=
  (∀ h ∈ s.gen.requestHolders (W.id q), h.1 = q) ∧
    ∀ j < W.width q, j ≠ k → (W.lookup q j).missing = true → (s.pc (q, j)).concluding = false

/-- Somebody is left to answer when the `k`-th task gives up. -/
def LeavesAnswer (W : Workload Q) (q : Q) (s : State Q) : Prop :=
  W.Found q ∨ ∃ j < W.width q, (W.lookup q j).missing = true ∧ s.pc (q, j) ≠ .finished

/-- The steps at which the table and the exits of `onRemoteRequest` do what request `q` needs. -/
def Orderly (W : Workload Q) (q : Q) (s : State Q) : Action Q → Prop
  | .accept _ => True
  | .call _ _ => True
  | .drop p id => p = W.peer q → id = W.id q → s.arrived q = false
  | .advance r k =>
    (r = q → s.pc (q, k) = .checking → DecidesAlone W q s k) ∧
      (r = q → s.pc (q, k) = .removing → LeavesAnswer W q s) ∧
      (r ≠ q → s.pc (r, k) = .forgetting → W.id r = W.id q →
        ∀ h ∈ s.gen.requestHolders (W.id q), h.1 ≠ q)
  | .stop i => ∀ k < W.width q, W.inst q k = i → s.pc (q, k) = .finished
  | .destroy i => ∀ k < W.width q, W.inst q k = i → s.pc (q, k) = .finished

section
variable [DecidableEq Q]

instance (W : Workload Q) (q : Q) (s : State Q) (k : ℕ) : Decidable (DecidesAlone W q s k) :=
  inferInstanceAs (Decidable (_ ∧ _))

instance (W : Workload Q) (q : Q) (s : State Q) : Decidable (LeavesAnswer W q s) :=
  inferInstanceAs (Decidable (_ ∨ _))

instance (W : Workload Q) (q : Q) (s : State Q) : ∀ a, Decidable (Orderly W q s a)
  | .accept _ | .call _ _ => .isTrue trivial
  | .drop _ _ => inferInstanceAs (Decidable (_ → _ → _))
  | .advance _ _ => inferInstanceAs (Decidable (_ ∧ _ ∧ _))
  | .stop _ | .destroy _ => inferInstanceAs (Decidable (∀ k < _, _))

/-! ## The request's own view -/

structure Tally where
  pc : ℕ → TaskPc
  /-- how often the task's holder is in the table: 0 or 1 -/
  held : ℕ → ℕ
  status : ℕ → ResponseStatusCode
  sent : List ResponseStatusCode

def tally (W : Workload Q) (q : Q) (s : State Q) : Tally where
  pc k := s.pc (q, k)
  held k := s.gen.entries (W.id q) (q, k)
  status k := s.gen.status (q, k)
  sent := terminalResponses W q s

end

/-- Task `k` goes to `pc`, and nothing else of the view changes but the task's own holder. -/
structure Moves (k : ℕ) (pc : TaskPc) (T T' : Tally) : Prop where
  pc : ∀ j, T'.pc j = if j = k then pc else T.pc j
  held : ∀ j, j ≠ k → T'.held j = T.held j
  status : ∀ j, j ≠ k → T'.status j = T.status j
  sent : T'.sent = T.sent

/-! ## The three phases -/

/-- What a task's place says about its lookup and its recorded status. -/
def Recorded (l : Lookup) (status : ResponseStatusCode) : TaskPc → Prop
  | .absent => True
  | .posted => status = .awaitingStatus
  | .selecting _ => status = .awaitingStatus
  | .refused => False
  | .removing => l.result = none ∧ status = .requestFailed
  | .checking => l.missing = true ∧ status = .notFound
  | .answering a => a = status ∧
      (l.found = true ∧ status = .fullContent ∨ l.missing = true ∧ status = .notFound)
  | .forgetting => l.found = true ∧ status = .fullContent ∨ l.missing = true ∧ status = .notFound
  | .finished => l.missing = true → status = .notFound

/-- How often the task's holder is in the table as long as nobody has removed the request. -/
def mark (l : Lookup) : TaskPc → ℕ
  | .absent => 0
  | .finished => if l.missing = true then 1 else 0
  | _ => 1

structure Coherent (W : Workload Q) (q : Q) (T : Tally) : Prop where
  beyond : ∀ k, W.width q ≤ k → T.pc k = .absent
  /-- the loop over the feedbacks ends before a task gets past its first lock -/
  early : ∀ j < W.width q, T.pc j = .absent → ∀ k, T.pc k = .absent ∨ T.pc k = .posted
  recorded : ∀ k, Recorded (W.lookup q k) (T.status k) (T.pc k)

structure Quiet (W : Workload Q) (q : Q) (T : Tally) : Prop where
  sent : T.sent = []
  held : ∀ k, T.held k = mark (W.lookup q k) (T.pc k)
  idle : ∀ k, (T.pc k).concluding = false
  pending : ∃ k < W.width q, T.pc k ≠ .finished
  found : ∀ k, (W.lookup q k).found = true → T.pc k ≠ .finished

/-- Task `a` is sending the answer, and nobody else will. -/
structure Busy (W : Workload Q) (q : Q) (a : ℕ) (T : Tally) : Prop where
  place : T.pc a = .answering (W.answer q) ∧ T.sent = [] ∨
    T.pc a = .forgetting ∧ T.sent = [W.answer q]
  alone : ∀ k, k ≠ a → (T.pc k).concluding = false
  cause : (W.lookup q a).found = true ∧ 0 < T.held a ∨
    ¬ W.Found q ∧ (W.lookup q a).missing = true ∧
      ∀ k < W.width q, k ≠ a → T.pc k = .checking ∨ T.pc k = .finished

structure Done (W : Workload Q) (q : Q) (T : Tally) : Prop where
  sent : T.sent = [W.answer q]
  held : ∀ k, T.held k = 0
  idle : ∀ k, (T.pc k).concluding = false
  found : ∀ k, (W.lookup q k).found = true → T.pc k = .finished ∨ W.width q ≤ k
  present : ∀ k < W.width q, T.pc k ≠ .absent

def Phase (W : Workload Q) (q : Q) (T : Tally) : Prop :=
  Quiet W q T ∨ (∃ a, Busy W q a T) ∨ Done W q T

/-- A task past its first lock tells that all are registered. -/
theorem Coherent.present {W : Workload Q} {q : Q} {T : Tally} (h : Coherent W q T) {k : ℕ}
    (ha : T.pc k ≠ .absent) (hp : T.pc k ≠ .posted) : ∀ j < W.width q, T.pc j ≠ .absent := by
  intro j hj habs
  cases h.early j hj habs k with
  | inl hk => exact ha hk
  | inr hk => exact hp hk

theorem Coherent.lt_width {W : Workload Q} {q : Q} {T : Tally} (h : Coherent W q T) {k : ℕ}
    (ha : T.pc k ≠ .absent) : k < W.width q := by
  by_contra hk
  exact ha (h.beyond k (by omega))

theorem idle_of_working {pc : TaskPc} (h : pc.working = true) : pc.concluding = false := by
  cases pc <;> first | rfl | exact absurd h Bool.false_ne_true

theorem mark_of_working (l : Lookup) {pc : TaskPc} (h : pc.working = true) : mark l pc = 1 := by
  cases pc <;> first | rfl | exact absurd h Bool.false_ne_true

theorem Busy.concluding {W : Workload Q} {q : Q} {a : ℕ} {T : Tally} (h : Busy W q a T) :
    (T.pc a).concluding = true := by
  rcases h.place with hp | hp
  · rw [hp.1, TaskPc.concluding]
  · rw [hp.1, TaskPc.concluding]

theorem Busy.lt_width {W : Workload Q} {q : Q} {a : ℕ} {T : Tally} (h : Busy W q a T)
    (hc : Coherent W q T) : a < W.width q := by
  apply hc.lt_width
  intro habs
  have := h.concluding
  rw [habs] at this
  exact Bool.false_ne_true this

theorem Recorded.of_concluding {l : Lookup} {status : ResponseStatusCode} {pc : TaskPc}
    (h : Recorded l status pc) (hc : pc.concluding = true) :
    l.found = true ∧ status = .fullContent ∨ l.missing = true ∧ status = .notFound := by
  cases pc with
  | answering _ => exact h.2
  | forgetting => exact h
  | _ => exact absurd hc Bool.false_ne_true

/-- One task moves on once all are registered. -/
theorem Coherent.move {W : Workload Q} {q : Q} {T T' : Tally} {k : ℕ} {pc : TaskPc}
    (h : Coherent W q T) (hm : Moves k pc T T') (hk : k < W.width q)
    (hall : ∀ j < W.width q, T.pc j ≠ .absent) (habs : pc ≠ .absent)
    (hrec : Recorded (W.lookup q k) (T'.status k) pc) : Coherent W q T' := by
  refine ⟨fun j hj => ?_, fun j hj hja => ?_, fun j => ?_⟩
  · rw [hm.pc, if_neg (by omega), h.beyond j hj]
  · rw [hm.pc] at hja
    by_cases hjk : j = k
    · rw [if_pos hjk] at hja
      exact absurd hja habs
    · rw [if_neg hjk] at hja
      exact absurd hja (hall j hj)
  · rw [hm.pc]
    by_cases hjk : j = k
    · rw [if_pos hjk, hjk]
      exact hrec
    · rw [if_neg hjk, hm.status j hjk]
      exact h.recorded j

/-- A step that is neither the start nor a part of an answer stays in its phase. -/
theorem Phase.move {W : Workload Q} {q : Q} {T T' : Tally} {k : ℕ} {pc : TaskPc}
    (h : Phase W q T) (hm : Moves k pc T T') (hk : k < W.width q)
    (hfrom : T.pc k ≠ .finished) (hidle : (T.pc k).concluding = false)
    (hidle' : pc.concluding = false) (habs : pc ≠ .absent)
    (hmark : T.held k = mark (W.lookup q k) (T.pc k) → T'.held k = mark (W.lookup q k) pc)
    (hzero : T.held k = 0 → T'.held k = 0)
    (hcheck : T.pc k = .checking → pc = .finished)
    (hfound : pc = .finished → (W.lookup q k).found = false)
    (hfin : Quiet W q T → pc = .finished → ∃ j < W.width q, j ≠ k ∧ T.pc j ≠ .finished) :
    Phase W q T' := by
  have hidleAll : ∀ j, (T.pc j).concluding = false → (T'.pc j).concluding = false := by
    intro j hj
    rw [hm.pc]
    by_cases hjk : j = k
    · rw [if_pos hjk, hidle']
    · rw [if_neg hjk, hj]
  rcases h with hq | ⟨a, hb⟩ | hd
  · refine .inl ⟨hm.sent.trans hq.sent, fun j => ?_, fun j => hidleAll j (hq.idle j), ?_, fun j hj => ?_⟩
    · rw [hm.pc]
      by_cases hjk : j = k
      · subst hjk
        rw [if_pos rfl, hmark (hq.held j)]
      · rw [if_neg hjk, hm.held j hjk, hq.held j]
    · by_cases hpf : pc = .finished
      · obtain ⟨j, hj, hjk, hjf⟩ := hfin hq hpf
        exact ⟨j, hj, by rw [hm.pc, if_neg hjk]; exact hjf⟩
      · exact ⟨k, hk, by rw [hm.pc, if_pos rfl]; exact hpf⟩
    · rw [hm.pc]
      by_cases hjk : j = k
      · subst hjk
        rw [if_pos rfl]
        intro hpf
        rw [hfound hpf] at hj
        exact Bool.false_ne_true hj
      · rw [if_neg hjk]
        exact hq.found j hj
  · have hak : a ≠ k := by
      intro hak
      subst hak
      rw [hb.concluding] at hidle
      exact Bool.false_ne_true hidle.symm
    refine .inr (.inl ⟨a, ?_, fun j hj => hidleAll j (hb.alone j hj), ?_⟩)
    · rw [hm.pc, if_neg hak, hm.sent]
      exact hb.place
    · rw [hm.held a hak]
      refine hb.cause.imp_right fun ⟨hnone, hmiss, hrest⟩ => ⟨hnone, hmiss, fun j hj hja => ?_⟩
      rw [hm.pc]
      by_cases hjk : j = k
      · rw [if_pos hjk]
        rw [hjk] at hja
        cases hrest k hk hja with
        | inl hc => exact .inr (hcheck hc)
        | inr hf => exact absurd hf hfrom
      · rw [if_neg hjk]
        exact hrest j hj hja
  · refine .inr (.inr ⟨hm.sent.trans hd.sent, fun j => ?_, fun j => hidleAll j (hd.idle j),
      fun j hj => ?_, fun j hj => ?_⟩)
    · by_cases hjk : j = k
      · rw [hjk, hzero (hd.held k)]
      · rw [hm.held j hjk, hd.held j]
    · by_cases hjk : j = k
      · subst hjk
        rcases hd.found j hj with hf | hw
        · exact absurd hf hfrom
        · exact .inr hw
      · rw [hm.pc, if_neg hjk]
        exact hd.found j hj
    · rw [hm.pc]
      by_cases hjk : j = k
      · rw [if_pos hjk]
        exact habs
      · rw [if_neg hjk]
        exact hd.present j hj

/-- An instance that found the content starts to answer. -/
theorem Phase.found {W : Workload Q} {q : Q} {T T' : Tally} {k : ℕ}
    (h : Phase W q T) (hm : Moves k (.answering .fullContent) T T') (hk : k < W.width q)
    (hone : ∀ i < W.width q, ∀ j < W.width q, (W.lookup q i).found = true →
      (W.lookup q j).found = true → i = j)
    (hrest : ∃ bs, T.pc k = .selecting bs) (hfound : (W.lookup q k).found = true)
    (hheld : T'.held k = T.held k) (hc : Coherent W q T) : Phase W q T' := by
  obtain ⟨bs, hsel⟩ := hrest
  have hans : W.answer q = .fullContent := if_pos ⟨k, hk, hfound⟩
  rcases h with hq | ⟨a, hb⟩ | hd
  · refine .inr (.inl ⟨k, .inl ⟨?_, hm.sent.trans hq.sent⟩, fun j hj => ?_, .inl ⟨hfound, ?_⟩⟩)
    · rw [hm.pc, if_pos rfl, hans]
    · rw [hm.pc, if_neg hj, hq.idle j]
    · rw [hheld, hq.held, hsel]
      exact Nat.one_pos
  · exfalso
    have hak : k ≠ a := by
      intro hak
      have := hb.concluding
      rw [← hak, hsel] at this
      exact Bool.false_ne_true this
    rcases hb.cause with ⟨hfa, -⟩ | ⟨hnone, -⟩
    · exact hak (hone k hk a (hb.lt_width hc) hfound hfa)
    · exact hnone ⟨k, hk, hfound⟩
  · exfalso
    rcases hd.found k hfound with hf | hw
    · rw [hsel] at hf
      cases hf
    · omega

/-- An instance without the content sees that no holder says otherwise. -/
theorem Phase.verdict {W : Workload Q} {q : Q} {T T' : Tally} {k : ℕ}
    (h : Phase W q T) (hm : Moves k (.answering .notFound) T T') (hc : Coherent W q T)
    (hcheck : T.pc k = .checking)
    (hpresent : ∃ j, 0 < T.held j) (hall : ∀ j, 0 < T.held j → T.status j = .notFound)
    (halone : ∀ j < W.width q, j ≠ k → (W.lookup q j).missing = true →
      (T.pc j).concluding = false) : Phase W q T' := by
  have hk : k < W.width q := hc.lt_width (by simp [hcheck])
  have hmiss : (W.lookup q k).missing = true := by
    have := hc.recorded k
    rw [hcheck] at this
    exact this.1
  rcases h with hq | ⟨a, hb⟩ | hd
  · have hrest : ∀ j < W.width q, j ≠ k → T.pc j = .checking ∨ T.pc j = .finished := by
      intro j hj hjk
      have hrec := hc.recorded j
      have hmark := hq.held j
      have hidle := hq.idle j
      have hst := hall j
      have hpr := hc.present (k := k) (by simp [hcheck]) (by simp [hcheck]) j hj
      cases hpc : T.pc j <;> simp_all [Recorded, mark, TaskPc.concluding]
    have hnone : ¬ W.Found q := by
      rintro ⟨j, hj, hf⟩
      have hrec := hc.recorded j
      have hmj : (W.lookup q j).missing = false := by
        by_contra hm
        rw [Lookup.found_of_missing ((Bool.not_eq_false _).mp hm)] at hf
        exact Bool.false_ne_true hf
      by_cases hjk : j = k
      · rw [hjk, hmiss] at hmj
        exact Bool.false_ne_true hmj.symm
      rcases hrest j hj hjk with hp | hp
      · rw [hp] at hrec
        rw [hrec.1] at hmj
        exact Bool.false_ne_true hmj.symm
      · exact hq.found j hf hp
    refine .inr (.inl ⟨k, .inl ⟨?_, hm.sent.trans hq.sent⟩, fun j hj => ?_,
      .inr ⟨hnone, hmiss, fun j hj hjk => ?_⟩⟩)
    · rw [hm.pc, if_pos rfl, Workload.answer, if_neg hnone]
    · rw [hm.pc, if_neg hj, hq.idle j]
    · rw [hm.pc, if_neg hjk]
      exact hrest j hj hjk
  · exfalso
    have hak : a ≠ k := by
      intro hak
      have := hb.concluding
      rw [hak, hcheck] at this
      exact Bool.false_ne_true this
    rcases hb.cause with ⟨hfa, hha⟩ | ⟨-, hma, -⟩
    · rcases (hc.recorded a).of_concluding hb.concluding with ⟨-, hst⟩ | ⟨hma, -⟩
      · rw [hall a hha] at hst
        cases hst
      · rw [Lookup.found_of_missing hma] at hfa
        exact Bool.false_ne_true hfa
    · have := halone a (hb.lt_width hc) hak hma
      rw [hb.concluding] at this
      exact Bool.false_ne_true this.symm
  · exfalso
    obtain ⟨j, hj⟩ := hpresent
    rw [hd.held j] at hj
    exact absurd hj (Nat.lt_irrefl 0)

/-- The answer is passed on. -/
theorem Phase.answered {W : Workload Q} {q : Q} {T T' : Tally} {k : ℕ} {status : ResponseStatusCode}
    (h : Phase W q T) (hfrom : T.pc k = .answering status)
    (hpc : ∀ j, T'.pc j = if j = k then .forgetting else T.pc j) (hheld : T'.held = T.held)
    (hsent : T'.sent = T.sent ++ [status]) : Phase W q T' := by
  have hcon : (T.pc k).concluding = true := by rw [hfrom, TaskPc.concluding]
  rcases h with hq | ⟨a, hb⟩ | hd
  · rw [hq.idle k] at hcon
    exact absurd hcon Bool.false_ne_true
  · have hka : k = a := by
      by_contra hka
      rw [hb.alone k hka] at hcon
      exact Bool.false_ne_true hcon
    subst hka
    refine .inr (.inl ⟨k, .inr ⟨?_, ?_⟩, fun j hj => ?_, ?_⟩)
    · rw [hpc, if_pos rfl]
    · rcases hb.place with ⟨hp, hs⟩ | ⟨hp, -⟩
      · rw [hfrom, TaskPc.answering.injEq] at hp
        rw [hsent, hs, hp, List.nil_append]
      · rw [hfrom] at hp
        cases hp
    · rw [hpc, if_neg hj, hb.alone j hj]
    · rw [hheld]
      refine hb.cause.imp_right fun ⟨hnone, hmiss, hrest⟩ => ⟨hnone, hmiss, fun j hj hjk => ?_⟩
      rw [hpc, if_neg hjk]
      exact hrest j hj hjk
  · rw [hd.idle k] at hcon
    exact absurd hcon Bool.false_ne_true

/-- The request is forgotten. -/
theorem Phase.forgotten {W : Workload Q} {q : Q} {T T' : Tally} {k : ℕ}
    (h : Phase W q T) (hc : Coherent W q T)
    (hone : ∀ i < W.width q, ∀ j < W.width q, (W.lookup q i).found = true →
      (W.lookup q j).found = true → i = j)
    (hfrom : T.pc k = .forgetting) (hpc : ∀ j, T'.pc j = if j = k then .finished else T.pc j)
    (hheld : ∀ j, T'.held j = 0) (hsent : T'.sent = T.sent) : Phase W q T' := by
  have hcon : (T.pc k).concluding = true := by rw [hfrom, TaskPc.concluding]
  have hall := hc.present (k := k) (by simp [hfrom]) (by simp [hfrom])
  rcases h with hq | ⟨a, hb⟩ | hd
  · rw [hq.idle k] at hcon
    exact absurd hcon Bool.false_ne_true
  · have hka : k = a := by
      by_contra hka
      rw [hb.alone k hka] at hcon
      exact Bool.false_ne_true hcon
    subst hka
    refine .inr (.inr ⟨?_, hheld, fun j => ?_, fun j hj => ?_, fun j hj => ?_⟩)
    · rcases hb.place with ⟨hp, -⟩ | ⟨-, hs⟩
      · rw [hfrom] at hp
        cases hp
      · rw [hsent, hs]
    · rw [hpc]
      by_cases hjk : j = k
      · rw [if_pos hjk]
        rfl
      · rw [if_neg hjk, hb.alone j hjk]
    · by_cases hw : W.width q ≤ j
      · exact .inr hw
      left
      rw [hpc]
      by_cases hjk : j = k
      · rw [if_pos hjk]
      · exfalso
        rcases hb.cause with ⟨hfk, -⟩ | ⟨hnone, -⟩
        · exact hjk (hone j (by omega) k (hb.lt_width hc) hj hfk)
        · exact hnone ⟨j, by omega, hj⟩
    · rw [hpc]
      by_cases hjk : j = k
      · rw [if_pos hjk]
        exact TaskPc.noConfusion
      · rw [if_neg hjk]
        exact hall j hj
  · rw [hd.idle k] at hcon
    exact absurd hcon Bool.false_ne_true

/-! ## The invariant of the node -/

variable [DecidableEq Q]

structure Inv (W : Workload Q) (q : Q) (s : State Q) : Prop where
  coherent : Coherent W q (tally W q s)
  phase : Phase W q (tally W q s)
  sink : s.arrived q = true → s.sink (W.peer q) (W.id q) = true
  fresh : s.arrived q = false → s.sink (W.peer q) (W.id q) = false ∧
    (∀ k, s.pc (q, k) = .absent) ∧ ∀ k, s.calling (W.peer q) ≠ some (q, k)
  loop : ∀ m, s.calling (W.peer q) = some (q, m) →
    m < W.width q ∧ (∀ k, m ≤ k → s.pc (q, k) = .absent) ∧ ∀ k < m, s.pc (q, k) = .posted
  called : s.arrived q = true → (∀ m, s.calling (W.peer q) ≠ some (q, m)) →
    ∀ k < W.width q, s.pc (q, k) ≠ .absent
  running : ∀ k < W.width q, s.pc (q, k) ≠ .finished →
    s.started (W.inst q k) = true ∧ s.alive (W.inst q k) = true

theorem Inv.initial {W : Workload Q} {q : Q} (hw : 0 < W.width q) :
    Inv W q (initial (Q := Q)) where
  coherent := ⟨fun _ _ => rfl, fun _ _ _ _ => .inl rfl, fun _ => trivial⟩
  phase := .inl ⟨rfl, fun _ => rfl, fun _ => rfl, ⟨0, hw, TaskPc.noConfusion⟩,
    fun _ _ => TaskPc.noConfusion⟩
  sink h := absurd h Bool.false_ne_true
  fresh _ := ⟨rfl, fun _ => rfl, fun _ => (Option.some_ne_none _).symm⟩
  loop _ h := absurd h (Option.some_ne_none _).symm
  called h := absurd h Bool.false_ne_true
  running _ _ _ := ⟨rfl, rfl⟩

/-! ## Steps of other requests -/

theorem Inv.congr {W : Workload Q} {q : Q} {s s' : State Q} (h : Inv W q s)
    (htally : tally W q s' = tally W q s) (harr : s'.arrived q = s.arrived q)
    (hsink : s'.sink (W.peer q) (W.id q) = s.sink (W.peer q) (W.id q))
    (hcall : ∀ m, s'.calling (W.peer q) = some (q, m) ↔ s.calling (W.peer q) = some (q, m))
    (hstarted : s'.started = s.started) (halive : s'.alive = s.alive) : Inv W q s' := by
  have hpc : ∀ k, s'.pc (q, k) = s.pc (q, k) := fun k => congrFun (congrArg Tally.pc htally) k
  refine ⟨htally ▸ h.coherent, htally ▸ h.phase, ?_, ?_, ?_, ?_, ?_⟩
  · rw [harr, hsink]
    exact h.sink
  · rw [harr, hsink]
    simpa only [hpc, ne_eq, hcall] using h.fresh
  · simpa only [hpc, hcall] using h.loop
  · simpa only [harr, hpc, ne_eq, hcall] using h.called
  · simpa only [hpc, hstarted, halive] using h.running

section
variable (W : Workload Q) {q r : Q} (s : State Q)

theorem tally_setPc_of_ne (hr : r ≠ q) (k : ℕ) (pc : TaskPc) :
    tally W q (setPc s r k pc) = tally W q s := by
  have hne : ∀ j, (q, j) ≠ (r, k) := fun j he => hr (congrArg Prod.fst he).symm
  simp [tally, setPc, terminalResponses, Function.update_of_ne (hne _)]

theorem tally_setGen {g : RequestIdGenerator (Q × ℕ)}
    (hheld : ∀ j, g.entries (W.id q) (q, j) = s.gen.entries (W.id q) (q, j))
    (hst : ∀ j, g.status (q, j) = s.gen.status (q, j)) :
    tally W q (setGen s g) = tally W q s := by
  simp [tally, setGen, terminalResponses, hheld, hst]

theorem tally_registerStatus_of_ne (hr : r ≠ q) (id : RequestId) (k : ℕ) :
    tally W q (setGen s (s.gen.registerStatus id (r, k))) = tally W q s := by
  have hne : ∀ j, (q, j) ≠ (r, k) := fun j he => hr (congrArg Prod.fst he).symm
  refine tally_setGen W s (fun j => ?_) fun j => ?_
  · rw [RequestIdGenerator.registerStatus_entries, if_neg fun h => hne j h.2, Nat.add_zero]
  · rw [RequestIdGenerator.registerStatus_status, if_neg (hne j)]

theorem tally_removeStatus_of_ne (hr : r ≠ q) (id : RequestId) (k : ℕ) :
    tally W q (setGen s (s.gen.removeStatus id (r, k))) = tally W q s := by
  have hne : ∀ j, (q, j) ≠ (r, k) := fun j he => hr (congrArg Prod.fst he).symm
  refine tally_setGen W s (fun j => ?_) fun j => rfl
  rw [RequestIdGenerator.removeStatus_entries, if_neg fun h => hne j h.2, Nat.sub_zero]

theorem tally_setStatus_of_ne (hr : r ≠ q) (k : ℕ) (status : ResponseStatusCode) :
    tally W q (setGen s (s.gen.setStatus (r, k) status)) = tally W q s := by
  have hne : ∀ j, (q, j) ≠ (r, k) := fun j he => hr (congrArg Prod.fst he).symm
  refine tally_setGen W s (fun j => rfl) fun j => ?_
  rw [RequestIdGenerator.setStatus_status, if_neg (hne j)]

theorem tally_removeRequest_of_ne {id : RequestId}
    (hid : id = W.id q → ∀ h ∈ s.gen.requestHolders (W.id q), h.1 ≠ q) :
    tally W q (setGen s (s.gen.removeRequest id)) = tally W q s := by
  refine tally_setGen W s (fun j => ?_) fun j => rfl
  rw [RequestIdGenerator.removeRequest_entries]
  by_cases he : W.id q = id
  · rw [if_pos he, eq_comm, ← Nat.le_zero, ← Nat.not_lt, RequestIdGenerator.entries_pos]
    intro hmem
    exact hid he.symm _ hmem rfl
  · rw [if_neg he]

theorem tally_emit_of_none {o : Output} (ho : terminalOf (W.peer q) (W.id q) o = none) :
    tally W q (emit s o) = tally W q s := by
  simp [tally, emit, terminalResponses, ho]

theorem tally_sendResponse_of_ne {p : PeerId} {id : RequestId}
    (hne : ¬ (p = W.peer q ∧ id = W.id q)) (status : ResponseStatusCode)
    (extensions : List Extension) :
    tally W q (sendResponse s p id status extensions) = tally W q s := by
  unfold sendResponse
  by_cases hs : s.sink p id = true
  · rw [if_pos hs]
    apply tally_emit_of_none
    rw [terminalOf, if_neg]
    rintro ⟨hp, hid, -⟩
    exact hne ⟨hp, hid⟩
  · rw [if_neg hs]

end

theorem Inv.advance_other {W : Workload Q} {q r : Q} {k : ℕ} {s s' : State Q} (h : Inv W q s)
    (hid : ∀ r, W.peer r = W.peer q → W.id r = W.id q → r = q) (hr : r ≠ q)
    (hok : Orderly W q s (.advance r k)) (hs : TaskStep W s r k s') : Inv W q s' := by
  have hne : ¬ (W.peer r = W.peer q ∧ W.id r = W.id q) := fun he => hr (hid r he.1 he.2)
  have hpc : ∀ X pc, tally W q (setPc X r k pc) = tally W q X := fun X pc =>
    tally_setPc_of_ne W X hr k pc
  cases hs with
  | gone | begins | skipped | refuses | verdict | undecided | unanswered =>
    exact h.congr (hpc _ _) rfl rfl (fun _ => Iff.rfl) rfl rfl
  | late | removed =>
    have ht := tally_removeStatus_of_ne W s hr (W.id r) k
    exact h.congr ((hpc _ _).trans ht) rfl rfl (fun _ => Iff.rfl) rfl rfl
  | passed =>
    exact h.congr ((hpc _ _).trans (tally_emit_of_none W s rfl)) rfl rfl (fun _ => Iff.rfl) rfl rfl
  | failed | missing | found | refused =>
    have ht := fun status => tally_setStatus_of_ne W s hr k status
    exact h.congr ((hpc _ _).trans (ht _)) rfl rfl (fun _ => Iff.rfl) rfl rfl
  | @answered status =>
    have ht := tally_sendResponse_of_ne W s hne status (W.request r).extensions
    cases hsink : s.sink (W.peer r) (W.id r) with
    | true =>
      rw [sendResponse_of_sink hsink] at ht ⊢
      exact h.congr ((hpc _ _).trans ht) rfl rfl (fun _ => Iff.rfl) rfl rfl
    | false =>
      rw [sendResponse_of_no_sink hsink]
      exact h.congr (hpc _ _) rfl rfl (fun _ => Iff.rfl) rfl rfl
  | forgotten hfor =>
    have ht := tally_removeRequest_of_ne W s (hok.2.2 hr hfor)
    exact h.congr ((hpc _ _).trans ht) rfl rfl (fun _ => Iff.rfl) rfl rfl

/-! ## Steps of the request's own tasks -/

theorem moves_advanced (W : Workload Q) (q : Q) (s : State Q) (k : ℕ) (pc : TaskPc)
    {g : RequestIdGenerator (Q × ℕ)} {out : List Output}
    (hheld : ∀ j, j ≠ k → g.entries (W.id q) (q, j) = s.gen.entries (W.id q) (q, j))
    (hst : ∀ j, j ≠ k → g.status (q, j) = s.gen.status (q, j))
    (hsent : out.filterMap (terminalOf (W.peer q) (W.id q)) = terminalResponses W q s) :
    Moves k pc (tally W q s) (tally W q (setPc { s with gen := g, out := out } q k pc)) := by
  refine ⟨fun j => ?_, hheld, hst, hsent⟩
  by_cases hj : j = k
  · simp [tally, setPc, hj]
  · simp [tally, setPc, hj]

/-- The control part of the invariant, when a task moves outside the loop. -/
theorem Inv.advanced {W : Workload Q} {q : Q} {s : State Q} {k : ℕ} {pc : TaskPc}
    {g : RequestIdGenerator (Q × ℕ)} {out : List Output} (h : Inv W q s)
    (hfree : ∀ m, s.calling (W.peer q) ≠ some (q, m)) (hfrom : s.pc (q, k) ≠ .absent)
    (hfin : s.pc (q, k) ≠ .finished) (habs : pc ≠ .absent)
    (hc : Coherent W q (tally W q (setPc { s with gen := g, out := out } q k pc)))
    (hp : Phase W q (tally W q (setPc { s with gen := g, out := out } q k pc))) :
    Inv W q (setPc { s with gen := g, out := out } q k pc) := by
  refine ⟨hc, hp, h.sink, fun harr => absurd ((h.fresh harr).2.1 k) hfrom,
    fun m hm => absurd hm (hfree m), fun harr hno j hj => ?_, fun j hj hjf => ?_⟩
  · by_cases hjk : j = k
    · simpa [setPc, hjk] using habs
    · have hne : (q, j) ≠ (q, k) := fun he => hjk (congrArg Prod.snd he)
      simpa [setPc, Function.update_of_ne hne] using h.called harr hno j hj
  · by_cases hjk : j = k
    · subst hjk
      exact h.running j hj hfin
    · have hne : (q, j) ≠ (q, k) := fun he => hjk (congrArg Prod.snd he)
      refine h.running j hj ?_
      simpa [setPc, Function.update_of_ne hne] using hjf

theorem Inv.arrived_of_pc {W : Workload Q} {q : Q} {s : State Q} {k : ℕ} (h : Inv W q s)
    (hpc : s.pc (q, k) ≠ .absent) : s.arrived q = true := by
  by_contra harr
  exact hpc ((h.fresh ((Bool.not_eq_true _).mp harr)).2.1 k)

theorem Inv.no_loop {W : Workload Q} {q : Q} {s : State Q} {k : ℕ} (h : Inv W q s)
    (hpc : s.pc (q, k) ≠ .absent) (hpost : s.pc (q, k) ≠ .posted) (m : ℕ) :
    s.calling (W.peer q) ≠ some (q, m) := by
  intro hm
  obtain ⟨-, hrest, hprev⟩ := h.loop m hm
  by_cases hk : m ≤ k
  · exact hpc (hrest k hk)
  · exact hpost (hprev k (by omega))

/-- A task goes on working. -/
theorem Inv.works {W : Workload Q} {q : Q} {s : State Q} {k : ℕ} {pc : TaskPc}
    {g : RequestIdGenerator (Q × ℕ)} {out : List Output} (h : Inv W q s)
    (hfree : ∀ m, s.calling (W.peer q) ≠ some (q, m)) (hfrom : (s.pc (q, k)).working = true)
    (hnot : s.pc (q, k) ≠ .checking) (hto : pc.working = true)
    (hheld : ∀ j, g.entries (W.id q) (q, j) = s.gen.entries (W.id q) (q, j))
    (hst : ∀ j, j ≠ k → g.status (q, j) = s.gen.status (q, j))
    (hsent : out.filterMap (terminalOf (W.peer q) (W.id q)) = terminalResponses W q s)
    (hrec : Recorded (W.lookup q k) (g.status (q, k)) pc) :
    Inv W q (setPc { s with gen := g, out := out } q k pc) := by
  have hm := moves_advanced W q s k pc (fun j _ => hheld j) hst hsent
  have habs : s.pc (q, k) ≠ .absent := fun he => by simp [he, TaskPc.working] at hfrom
  have hfin : s.pc (q, k) ≠ .finished := fun he => by simp [he, TaskPc.working] at hfrom
  have habs' : pc ≠ .absent := fun he => by simp [he, TaskPc.working] at hto
  have hfin' : pc ≠ .finished := fun he => by simp [he, TaskPc.working] at hto
  have hk := h.coherent.lt_width habs
  have hall := h.called (h.arrived_of_pc habs) hfree
  refine h.advanced hfree habs hfin habs' (h.coherent.move hm hk hall habs' hrec)
    (h.phase.move hm hk hfin (idle_of_working hfrom) (idle_of_working hto) habs' ?_ ?_
      (fun hc => absurd hc hnot) (fun hf => absurd hf hfin') (fun _ hf => absurd hf hfin'))
  · intro hmark
    have hone : s.gen.entries (W.id q) (q, k) = 1 := hmark.trans (mark_of_working _ hfrom)
    exact (hheld k).trans (hone.trans (mark_of_working _ hto).symm)
  · exact (hheld k).trans

/-- A task gives up: a failed one has removed its holder, one without content leaves it. -/
theorem Inv.finishes {W : Workload Q} {q : Q} {s : State Q} {k : ℕ}
    {g : RequestIdGenerator (Q × ℕ)} (h : Inv W q s) (hfrom : (s.pc (q, k)).working = true)
    (hpost : s.pc (q, k) ≠ .posted)
    (hheld : ∀ j, j ≠ k → g.entries (W.id q) (q, j) = s.gen.entries (W.id q) (q, j))
    (hk : g.entries (W.id q) (q, k) = s.gen.entries (W.id q) (q, k) -
      if (W.lookup q k).missing = true then 0 else 1)
    (hst : g.status = s.gen.status) (hfound : (W.lookup q k).found = false)
    (hrec : (W.lookup q k).missing = true → s.gen.status (q, k) = .notFound)
    (hrest : Quiet W q (tally W q s) → ∃ j < W.width q, j ≠ k ∧ s.pc (q, j) ≠ .finished) :
    Inv W q (setPc { s with gen := g } q k .finished) := by
  have hm : Moves k .finished (tally W q s) (tally W q (setPc { s with gen := g } q k .finished)) :=
    moves_advanced W q s k .finished hheld (fun j _ => congrFun hst (q, j)) rfl
  have habs : s.pc (q, k) ≠ .absent := fun he => by simp [he, TaskPc.working] at hfrom
  have hfin : s.pc (q, k) ≠ .finished := fun he => by simp [he, TaskPc.working] at hfrom
  have hfree := h.no_loop habs hpost
  have hlt := h.coherent.lt_width habs
  have hall := h.called (h.arrived_of_pc habs) hfree
  refine h.advanced hfree habs hfin TaskPc.noConfusion
    (h.coherent.move hm hlt hall TaskPc.noConfusion ?_)
    (h.phase.move hm hlt hfin (idle_of_working hfrom) rfl TaskPc.noConfusion ?_ ?_
      (fun _ => rfl) (fun _ => hfound) (fun hq _ => hrest hq))
  · change (W.lookup q k).missing = true → g.status (q, k) = .notFound
    rw [hst]
    exact hrec
  · intro hmark
    have hone : s.gen.entries (W.id q) (q, k) = 1 := hmark.trans (mark_of_working _ hfrom)
    refine hk.trans ?_
    rw [hone, mark]
    by_cases hmiss : (W.lookup q k).missing = true
    · simp [hmiss]
    · simp [hmiss]
  · intro hzero
    have hz : s.gen.entries (W.id q) (q, k) = 0 := hzero
    refine hk.trans ?_
    rw [hz, Nat.zero_sub]

/-- A check that fails has found a holder of another task that is still to report. -/
theorem Inv.exists_unfinished {W : Workload Q} {q : Q} {s : State Q} {k : ℕ} (h : Inv W q s)
    (hq : Quiet W q (tally W q s)) (hpc : s.pc (q, k) = .checking)
    (hown : ∀ h ∈ s.gen.requestHolders (W.id q), h.1 = q)
    (hall : s.gen.allStatusesNotFound (W.id q) = false) :
    ∃ j < W.width q, j ≠ k ∧ s.pc (q, j) ≠ .finished := by
  have hheld : ∀ j, s.gen.entries (W.id q) (q, j) = mark (W.lookup q j) (s.pc (q, j)) := hq.held
  have hrec : ∀ j, Recorded (W.lookup q j) (s.gen.status (q, j)) (s.pc (q, j)) := h.coherent.recorded
  have hself : (q, k) ∈ s.gen.requestHolders (W.id q) := by
    rw [← RequestIdGenerator.entries_pos, hheld, hpc]
    exact Nat.one_pos
  have hnot : ¬ ∀ h ∈ s.gen.requestHolders (W.id q), s.gen.status h = .notFound := by
    intro hnf
    have := (RequestIdGenerator.allStatusesNotFound_iff s.gen (W.id q)).mpr
      ⟨List.ne_nil_of_mem hself, hnf⟩
    rw [hall] at this
    exact Bool.false_ne_true this
  obtain ⟨⟨r, j⟩, hmem, hst⟩ : ∃ h ∈ s.gen.requestHolders (W.id q), s.gen.status h ≠ .notFound := by
    simpa using hnot
  have hr : r = q := hown _ hmem
  subst hr
  have hpos := (RequestIdGenerator.entries_pos).mpr hmem
  rw [hheld] at hpos
  refine ⟨j, h.coherent.lt_width fun habs => ?_, fun hjk => ?_, fun hfin => ?_⟩
  · have habs' : s.pc (r, j) = .absent := habs
    rw [habs'] at hpos
    exact Nat.lt_irrefl 0 hpos
  · have hk := hrec k
    rw [hpc] at hk
    rw [hjk] at hst
    exact hst hk.2
  · have hj := hrec j
    rw [hfin] at hj hpos
    by_cases hmiss : (W.lookup r j).missing = true
    · exact hst (hj hmiss)
    · simp [mark, hmiss] at hpos

theorem Inv.advance_own {W : Workload Q} {q : Q} {k : ℕ} {s s' : State Q} (h : Inv W q s)
    (hone : ∀ i < W.width q, ∀ j < W.width q, (W.lookup q i).found = true →
      (W.lookup q j).found = true → i = j)
    (hok : Orderly W q s (.advance q k)) (hs : TaskStep W s q k s') : Inv W q s' := by
  have hrec := h.coherent.recorded k
  simp only [tally] at hrec
  cases hs with
  | gone hpc hdead =>
    have hk := h.coherent.lt_width (k := k) (by simp [tally, hpc])
    rw [(h.running k hk (by simp [hpc])).2] at hdead
    exact absurd hdead.symm Bool.false_ne_true
  | late hpc hstop =>
    have hk := h.coherent.lt_width (k := k) (by simp [tally, hpc])
    rw [(h.running k hk (by simp [hpc])).1] at hstop
    exact absurd hstop.symm Bool.false_ne_true
  | unanswered hpc hstop =>
    have hk := h.coherent.lt_width (k := k) (by simp [tally, hpc])
    rw [(h.running k hk (by simp [hpc])).1] at hstop
    exact absurd hstop.symm Bool.false_ne_true
  | refuses hpc _ hno =>
    rw [h.sink (h.arrived_of_pc (k := k) (by simp [hpc]))] at hno
    exact absurd hno.symm Bool.false_ne_true
  | refused hpc =>
    rw [hpc] at hrec
    exact hrec.elim
  | begins hpc hfree =>
    rw [hpc] at hrec
    refine h.works (fun m hc => ?_) (by rw [hpc]; rfl) (by simp [hpc]) rfl (fun _ => rfl)
      (fun _ _ => rfl) rfl hrec
    rw [hfree] at hc
    cases hc
  | skipped hpc =>
    rw [hpc] at hrec
    exact h.works (h.no_loop (k := k) (by simp [hpc]) (by simp [hpc])) (by rw [hpc]; rfl)
      (by simp [hpc]) rfl (fun _ => rfl) (fun _ _ => rfl) rfl hrec
  | @passed b _ hpc _ =>
    rw [hpc] at hrec
    refine h.works (h.no_loop (k := k) (by simp [hpc]) (by simp [hpc])) (by rw [hpc]; rfl)
      (by simp [hpc]) rfl (fun _ => rfl) (fun _ _ => rfl) ?_ hrec
    simp [terminalResponses, terminalOf]
  | failed hpc hres =>
    refine h.works (h.no_loop (k := k) (by simp [hpc]) (by simp [hpc])) (by rw [hpc]; rfl)
      (by simp [hpc]) rfl (fun _ => rfl) (fun j hj => ?_) rfl ⟨hres, ?_⟩
    · simp [hj]
    · simp
  | missing hpc hres =>
    refine h.works (h.no_loop (k := k) (by simp [hpc]) (by simp [hpc])) (by rw [hpc]; rfl)
      (by simp [hpc]) rfl (fun _ => rfl) (fun j hj => ?_) rfl ⟨hres, ?_⟩
    · simp [hj]
    · simp
  | found hpc hres =>
    have hne : s.pc (q, k) ≠ .absent := by simp [hpc]
    have hfree := h.no_loop hne (by simp [hpc])
    have hk := h.coherent.lt_width hne
    have hm := moves_advanced W q s k (.answering .fullContent)
      (show ∀ j, j ≠ k → (s.gen.setStatus (q, k) .fullContent).entries (W.id q) (q, j) =
        s.gen.entries (W.id q) (q, j) from fun _ _ => rfl) (fun j hj => by simp [hj])
      (rfl : s.out.filterMap _ = _)
    refine h.advanced hfree hne (by simp [hpc]) TaskPc.noConfusion
      (h.coherent.move hm hk (h.called (h.arrived_of_pc hne) hfree) TaskPc.noConfusion ⟨?_, .inl ⟨hres, ?_⟩⟩)
      (h.phase.found hm hk hone ⟨[], hpc⟩ hres rfl h.coherent)
    · simp [tally, setPc]
    · simp [tally, setPc]
  | removed hpc =>
    rw [hpc] at hrec
    have hmiss : (W.lookup q k).missing = false := by simp [Lookup.missing, hrec.1]
    have hfound : (W.lookup q k).found = false := by simp [Lookup.found, hrec.1]
    refine h.finishes (by rw [hpc]; rfl) (by simp [hpc]) (fun j hj => ?_) ?_ rfl hfound
      (fun hm => absurd (hmiss.symm.trans hm) Bool.false_ne_true) fun hq => ?_
    · simp [RequestIdGenerator.removeStatus_entries, hj]
    · simp [RequestIdGenerator.removeStatus_entries, hmiss]
    · rcases hok.2.1 rfl hpc with ⟨j, hj, hf⟩ | ⟨j, hj, hm, hjf⟩
      · refine ⟨j, hj, fun hjk => ?_, hq.found j hf⟩
        rw [hjk, hfound] at hf
        exact Bool.false_ne_true hf
      · refine ⟨j, hj, fun hjk => ?_, hjf⟩
        rw [hjk, hmiss] at hm
        exact Bool.false_ne_true hm
  | verdict hpc hall =>
    rw [hpc] at hrec
    have hne : s.pc (q, k) ≠ .absent := by simp [hpc]
    have hfree := h.no_loop hne (by simp [hpc])
    have hk := h.coherent.lt_width hne
    obtain ⟨hown, hothers⟩ := hok.1 rfl hpc
    obtain ⟨hsome, hnf⟩ := (RequestIdGenerator.allStatusesNotFound_iff _ _).mp hall
    have hm := moves_advanced W q s k (.answering .notFound)
      (show ∀ j, j ≠ k → s.gen.entries (W.id q) (q, j) = s.gen.entries (W.id q) (q, j)
        from fun _ _ => rfl) (fun _ _ => rfl) (rfl : s.out.filterMap _ = _)
    refine h.advanced hfree hne (by simp [hpc]) TaskPc.noConfusion
      (h.coherent.move hm hk (h.called (h.arrived_of_pc hne) hfree) TaskPc.noConfusion
        ⟨hrec.2.symm, .inr hrec⟩)
      (h.phase.verdict hm h.coherent hpc ?_ (fun j hj => ?_) hothers)
    · obtain ⟨⟨r, j⟩, hmem⟩ := List.exists_mem_of_ne_nil _ hsome
      have hr : r = q := hown _ hmem
      subst hr
      exact ⟨j, (RequestIdGenerator.entries_pos).mpr hmem⟩
    · exact hnf (q, j) ((RequestIdGenerator.entries_pos).mp hj)
  | undecided hpc hall =>
    rw [hpc] at hrec
    refine h.finishes (by rw [hpc]; rfl) (by simp [hpc]) (fun _ _ => rfl) ?_ rfl
      (Lookup.found_of_missing hrec.1) (fun _ => hrec.2) fun hq => ?_
    · simp [hrec.1]
    · exact h.exists_unfinished hq hpc (hok.1 rfl hpc).1 hall
  | @answered status hpc hfree =>
    rw [hpc] at hrec
    have hne : s.pc (q, k) ≠ .absent := by simp [hpc]
    have hloop := h.no_loop hne (by simp [hpc])
    have hk := h.coherent.lt_width hne
    have hterm : isTerminal status = true := by
      rcases hrec.2 with ⟨-, hst⟩ | ⟨-, hst⟩
      · rw [hrec.1, hst]
        rfl
      · rw [hrec.1, hst]
        rfl
    have hc := h.coherent.move (moves_advanced W q s k .forgetting (fun _ _ => rfl) (fun _ _ => rfl) rfl)
      hk (h.called (h.arrived_of_pc hne) hloop) TaskPc.noConfusion hrec.2
    rw [sendResponse_of_sink (h.sink (h.arrived_of_pc hne))]
    refine h.advanced hloop hne (by simp [hpc]) TaskPc.noConfusion
      ⟨hc.beyond, hc.early, hc.recorded⟩ (h.phase.answered hpc (fun j => ?_) rfl ?_)
    · by_cases hj : j = k
      · simp [tally, setPc, hj]
      · simp [tally, setPc, hj]
    · simp [tally, setPc, terminalResponses, terminalOf, hterm]
  | forgotten hpc =>
    rw [hpc] at hrec
    have hne : s.pc (q, k) ≠ .absent := by simp [hpc]
    have hloop := h.no_loop hne (by simp [hpc])
    have hk := h.coherent.lt_width hne
    have hfin : (W.lookup q k).missing = true → s.gen.status (q, k) = .notFound := by
      intro hmiss
      rcases hrec with ⟨hf, -⟩ | ⟨-, hst⟩
      · rw [Lookup.found_of_missing hmiss] at hf
        exact absurd hf Bool.false_ne_true
      · exact hst
    have hc := h.coherent.move (moves_advanced W q s k .finished (fun _ _ => rfl) (fun _ _ => rfl) rfl)
      hk (h.called (h.arrived_of_pc hne) hloop) TaskPc.noConfusion hfin
    refine h.advanced hloop hne (by simp [hpc]) TaskPc.noConfusion
      ⟨hc.beyond, hc.early, hc.recorded⟩
      (h.phase.forgotten h.coherent hone hpc (fun j => ?_) (fun j => ?_) rfl)
    · by_cases hj : j = k
      · simp [tally, setPc, hj]
      · simp [tally, setPc, hj]
    · simp [tally, setPc, RequestIdGenerator.removeRequest_entries]

theorem Inv.accept {W : Workload Q} {q r : Q} {s s' : State Q} (h : Inv W q s)
    (hw : 0 < W.width q) (hid : ∀ r, W.peer r = W.peer q → W.id r = W.id q → r = q)
    (hs : accept W s r = some s') : Inv W q s' := by
  unfold Responder.accept at hs
  by_cases hno : s.arrived r = true ∨ s.calling (W.peer r) ≠ none
  · rw [if_pos hno] at hs
    exact absurd hs (Option.some_ne_none s').symm
  rw [if_neg hno] at hs
  obtain ⟨hnew, hfree⟩ := not_or.mp hno
  rw [ne_eq, not_not] at hfree
  by_cases hr : r = q
  · subst hr
    obtain ⟨hclosed, habs, -⟩ := h.fresh ((Bool.not_eq_true _).mp hnew)
    rw [if_neg (by simp [hclosed])] at hs
    rw [← Option.some.inj hs]
    refine ⟨h.coherent, h.phase, fun _ => ?_, fun harr => ?_, fun m hm => ?_, fun _ hnone => ?_,
      h.running⟩
    · simp [setCalling, setSink]
    · simp [setCalling, setSink, markArrived] at harr
    · have hm0 : 0 = m := by simpa [setCalling, hw] using hm
      subst hm0
      exact ⟨hw, fun k _ => habs k, fun k hk => absurd hk (Nat.not_lt_zero k)⟩
    · exact absurd (by simp [setCalling, hw]) (hnone 0)
  · have hne : ¬ (W.peer r = W.peer q ∧ W.id r = W.id q) := fun he => hr (hid r he.1 he.2)
    have harr : Function.update s.arrived r true q = s.arrived q := Function.update_of_ne (Ne.symm hr) _ _
    by_cases hsink : s.sink (W.peer r) (W.id r) = true
    · rw [if_pos hsink] at hs
      have hsink' : (markArrived s r).sink (W.peer r) (W.id r) = true := hsink
      have ht := tally_sendResponse_of_ne W (markArrived s r) hne .rejected []
      rw [sendResponse_of_sink hsink'] at hs ht
      exact Option.some.inj hs ▸ h.congr ht harr rfl (fun _ => Iff.rfl) rfl rfl
    · rw [if_neg hsink] at hs
      rw [← Option.some.inj hs]
      refine h.congr rfl harr ?_ (fun m => ?_) rfl rfl
      · by_cases hp : W.peer q = W.peer r
        · have hi : W.id q ≠ W.id r := fun he => hne ⟨hp.symm, he.symm⟩
          simp [setCalling, setSink, markArrived, hp, hi]
        · simp [setCalling, setSink, markArrived, hp]
      · by_cases hp : W.peer q = W.peer r
        · have hpq : s.calling (W.peer q) ≠ some (q, m) := by
            rw [hp, hfree]
            exact (Option.some_ne_none _).symm
          refine iff_of_false ?_ hpq
          by_cases hw0 : 0 < W.width r
          · simp [setCalling, hp, hw0, hr]
          · simp [setCalling, hp, hw0]
        · simp [setCalling, setSink, markArrived, hp]

/-- The loop of the request's own context registers one more feedback. -/
theorem Inv.registered {W : Workload Q} {q : Q} {k : ℕ} {s s' : State Q} (h : Inv W q s)
    (hloop : s.calling (W.peer q) = some (q, k))
    (hs' : s' = setCalling W (setPc (setGen s (s.gen.registerStatus (W.id q) (q, k))) q k .posted)
      (W.peer q) q (k + 1)) : Inv W q s' := by
  obtain ⟨hk, hrest, hprev⟩ := h.loop k hloop
  have habs := hrest k (Nat.le_refl k)
  have hpc : ∀ j, s'.pc (q, j) = if j = k then .posted else s.pc (q, j) := by
    intro j
    by_cases hj : j = k
    · simp [hs', setCalling, setPc, setGen, hj]
    · simp [hs', setCalling, setPc, setGen, hj]
  have hcalling : s'.calling (W.peer q) = if k + 1 < W.width q then some (q, k + 1) else none := by
    simp [hs', setCalling]
  have hearly : ∀ j, s.pc (q, j) = .absent ∨ s.pc (q, j) = .posted := by
    intro j
    by_cases hj : k ≤ j
    · exact .inl (hrest j hj)
    · exact .inr (hprev j (by omega))
  have harr : s'.arrived q = true := by
    by_contra harr
    rw [hs'] at harr
    exact (h.fresh ((Bool.not_eq_true _).mp harr)).2.2 k hloop
  have hquiet : Quiet W q (tally W q s) := by
    rcases h.phase with hq | ⟨a, hb⟩ | hd
    · exact hq
    · have := hb.concluding
      rcases hearly a with ha | ha <;> simp [tally, ha, TaskPc.concluding] at this
    · exact absurd habs (hd.present k hk)
  have hcoh : Coherent W q (tally W q s') := by
    refine ⟨fun j hj => ?_, fun _ _ _ j => ?_, fun j => ?_⟩
    · exact (hpc j).trans ((if_neg (by omega)).trans (h.coherent.beyond j hj))
    · by_cases hj : j = k
      · exact .inr ((hpc j).trans (if_pos hj))
      · exact (hearly j).imp ((hpc j).trans (if_neg hj)).trans ((hpc j).trans (if_neg hj)).trans
    · change Recorded _ (s'.gen.status (q, j)) (s'.pc (q, j))
      rw [hpc]
      by_cases hj : j = k
      · rw [if_pos hj]
        simp [Recorded, hs', setCalling, setPc, setGen, hj]
      · rw [if_neg hj]
        simpa [tally, hs', setCalling, setPc, setGen, hj] using h.coherent.recorded j
  have hphase : Quiet W q (tally W q s') := by
    refine ⟨?_, fun j => ?_, fun j => ?_, ⟨k, hk, ?_⟩, fun j hj => ?_⟩
    · rw [hs']
      exact hquiet.sent
    · change s'.gen.entries (W.id q) (q, j) = mark (W.lookup q j) (s'.pc (q, j))
      have hheld : s.gen.entries (W.id q) (q, j) = mark (W.lookup q j) (s.pc (q, j)) := hquiet.held j
      rw [hpc, hs']
      by_cases hj : j = k
      · rw [hj, habs] at hheld
        simp [setCalling, setPc, setGen, RequestIdGenerator.registerStatus_entries, hj, hheld, mark]
      · simp [setCalling, setPc, setGen, RequestIdGenerator.registerStatus_entries, hj, hheld]
    · change (s'.pc (q, j)).concluding = false
      rw [hpc]
      by_cases hj : j = k
      · rw [if_pos hj]
        rfl
      · rw [if_neg hj]
        exact hquiet.idle j
    · change s'.pc (q, k) ≠ .finished
      rw [hpc, if_pos rfl]
      exact TaskPc.noConfusion
    · change s'.pc (q, j) ≠ .finished
      rw [hpc]
      by_cases hjk : j = k
      · rw [if_pos hjk]
        exact TaskPc.noConfusion
      · rw [if_neg hjk]
        exact hquiet.found j hj
  refine ⟨hcoh, .inl hphase, fun _ => ?_, fun hno => absurd harr (by simp [hno]), fun m hm => ?_,
    fun _ hno j hj => ?_, fun j hj hjf => ?_⟩
  · rw [hs'] at harr ⊢
    exact h.sink harr
  · rw [hcalling] at hm
    by_cases hw : k + 1 < W.width q
    · rw [if_pos hw, Option.some.injEq, Prod.mk.injEq] at hm
      refine ⟨hm.2 ▸ hw, fun j hj => ?_, fun j hj => ?_⟩
      · rw [hpc, if_neg (by omega)]
        exact hrest j (by omega)
      · rw [hpc]
        by_cases hjk : j = k
        · rw [if_pos hjk]
        · rw [if_neg hjk]
          exact hprev j (by omega)
    · rw [if_neg hw] at hm
      cases hm
  · have hw : ¬ k + 1 < W.width q := by
      intro hw
      exact hno (k + 1) (hcalling.trans (if_pos hw))
    rw [hpc]
    by_cases hjk : j = k
    · rw [if_pos hjk]
      exact TaskPc.noConfusion
    · rw [if_neg hjk, hprev j (by omega)]
      exact TaskPc.noConfusion
  · have hrun : s.pc (q, j) ≠ .finished := by
      by_cases hjk : j = k
      · rw [hjk, habs]
        exact TaskPc.noConfusion
      · rwa [hpc, if_neg hjk] at hjf
    rw [hs']
    exact h.running j hj hrun

theorem Inv.call {W : Workload Q} {q r : Q} {k : ℕ} {s s' : State Q} (h : Inv W q s)
    (hs : call W s r k = some s') : Inv W q s' := by
  unfold Responder.call at hs
  by_cases hno : s.calling (W.peer r) ≠ some (r, k)
  · rw [if_pos hno] at hs
    exact absurd hs (Option.some_ne_none s').symm
  rw [if_neg hno] at hs
  rw [ne_eq, not_not] at hno
  by_cases hr : r = q
  · subst hr
    have hstarted := (h.running k (h.loop k hno).1 (by simp [(h.loop k hno).2.1 k (Nat.le_refl k)])).1
    rw [if_pos hstarted] at hs
    exact h.registered hno (Option.some.inj hs).symm
  · have hcall : ∀ X : State Q, X.calling = s.calling → ∀ m,
        (setCalling W X (W.peer r) r (k + 1)).calling (W.peer q) = some (q, m) ↔
          s.calling (W.peer q) = some (q, m) := by
      intro X hX m
      by_cases hp : W.peer q = W.peer r
      · have hpq : s.calling (W.peer q) ≠ some (q, m) := by
          rw [hp, hno]
          simp [hr]
        refine iff_of_false ?_ hpq
        by_cases hw : k + 1 < W.width r
        · simp [setCalling, hp, hw, hr]
        · simp [setCalling, hp, hw]
      · simp [setCalling, hp, hX]
    by_cases hst : s.started (W.inst r k) = true
    · rw [if_pos hst] at hs
      have ht := (tally_setPc_of_ne W (setGen s (s.gen.registerStatus (W.id r) (r, k))) hr k
        .posted).trans (tally_registerStatus_of_ne W s hr (W.id r) k)
      exact Option.some.inj hs ▸ h.congr ht rfl rfl (hcall _ rfl) rfl rfl
    · rw [if_neg hst] at hs
      have ht := tally_setPc_of_ne W s hr k .finished
      exact Option.some.inj hs ▸ h.congr ht rfl rfl (hcall _ rfl) rfl rfl

theorem Inv.step {W : Workload Q} {q : Q} {s s' : State Q} {a : Action Q} (h : Inv W q s)
    (hw : 0 < W.width q) (hid : ∀ r, W.peer r = W.peer q → W.id r = W.id q → r = q)
    (hone : ∀ i < W.width q, ∀ j < W.width q, (W.lookup q i).found = true →
      (W.lookup q j).found = true → i = j)
    (hok : Orderly W q s a) (hs : step W s a = some s') : Inv W q s' := by
  cases a with
  | accept r => exact h.accept hw hid hs
  | call r k => exact h.call hs
  | advance r k =>
    have htask := taskStep_of_advance hs
    by_cases hr : r = q
    · subst hr
      exact h.advance_own hone hok htask
    · exact h.advance_other hid hr hok htask
  | drop p id =>
    unfold Responder.step at hs
    by_cases hfree : s.calling p = none
    · simp only [hfree, if_true] at hs
      rw [← Option.some.inj hs]
      by_cases hmine : p = W.peer q ∧ id = W.id q
      · have harr := hok hmine.1 hmine.2
        refine { h with sink := fun hno => ?_, fresh := fun _ => ⟨?_, (h.fresh harr).2⟩ }
        · have hno' : s.arrived q = true := hno
          rw [harr] at hno'
          exact absurd hno' Bool.false_ne_true
        · simp [setSink, hmine.1, hmine.2]
      · refine h.congr rfl rfl ?_ (fun _ => Iff.rfl) rfl rfl
        by_cases hp : W.peer q = p
        · have hi : W.id q ≠ id := fun he => hmine ⟨hp.symm, he.symm⟩
          simp [setSink, hp, hi]
        · simp [setSink, hp]
    · simp only [hfree, if_false] at hs
      exact absurd hs (Option.some_ne_none s').symm
  | stop i =>
    rw [← Option.some.inj hs]
    refine { h with running := fun k hk hf => ⟨?_, (h.running k hk hf).2⟩ }
    have hi : W.inst q k ≠ i := fun hi => hf (hok k hk hi)
    simpa [Function.update_of_ne hi] using (h.running k hk hf).1
  | destroy i =>
    rw [← Option.some.inj hs]
    refine { h with running := fun k hk hf => ⟨(h.running k hk hf).1, ?_⟩ }
    have hi : W.inst q k ≠ i := fun hi => hf (hok k hk hi)
    simpa [Function.update_of_ne hi] using (h.running k hk hf).2

/-- **Responder agreement** in an orderly run: once all tasks of the request are through, exactly
one terminal response was passed on, `RS_FULL_CONTENT` if the content was found. -/
theorem answered_once (W : Workload Q) (q : Q) (hw : 0 < W.width q)
    (hid : ∀ r, W.peer r = W.peer q → W.id r = W.id q → r = q)
    (hone : ∀ i < W.width q, ∀ j < W.width q, (W.lookup q i).found = true →
      (W.lookup q j).found = true → i = j) {as : List (Action Q)} {s : State Q}
    (hok : Runs.EveryStep (step W) (Orderly W q) initial as) (hr : run W initial as = some s)
    (hdone : ∀ k < W.width q, s.pc (q, k) = .finished) :
    terminalResponses W q s = [W.answer q] := by
  have h := Runs.run_invariant (Inv W q) (fun _ _ _ h ho hs => h.step hw hid hone ho hs)
    (Inv.initial hw) hok hr
  rcases h.phase with hq | ⟨a, hb⟩ | hd
  · obtain ⟨k, hk, hpend⟩ := hq.pending
    exact absurd (hdone k hk) hpend
  · have hfin : (tally W q s).pc a = .finished := hdone a (hb.lt_width h.coherent)
    have := hb.concluding
    rw [hfin] at this
    exact absurd this Bool.false_ne_true
  · exact hd.sent

/-- One request to a node whose instances find what `ls` says. -/
def sharedRequest (ls : List Lookup) : Workload Unit where
  peer _ := 0
  request _ := { Message.Request.default with id := 1 }
  width _ := ls.length
  inst _ k := k
  lookup _ k := ls.getD k ⟨[], none⟩

/-- Accepted, handed to `n` feedbacks, and then the steps of the tasks in the given order. -/
def scheduled (n : ℕ) (ks : List ℕ) : List (Action Unit) :=
  .accept () :: (List.range n).map (.call ()) ++ ks.map (.advance ())

theorem answered_once_failing_first :
    terminalResponses (sharedRequest [⟨[], none⟩, ⟨[], some 0⟩]) ()
      ((run (sharedRequest [⟨[], none⟩, ⟨[], some 0⟩]) initial
        (scheduled 2 [0, 0, 1, 1, 0, 1, 1, 1])).get (by decide)) = [.notFound] :=
  (answered_once _ () (by decide) (fun _ _ _ => rfl) (by decide) (by decide)
    (Option.some_get _).symm (by decide)).trans (by decide)

/-- A failed lookup on its own leaves the peer without a response; two instances that found the
content both send it; two that did not both see the other's holder and send `RS_NOT_FOUND`. -/
theorem none_or_two_terminal_responses :
    ((run (sharedRequest [⟨[], none⟩]) initial (scheduled 1 [0, 0, 0])).map fun s =>
        (s.pc ((), 0), terminalResponses (sharedRequest [⟨[], none⟩]) () s)) =
      some (.finished, []) ∧
    ((run (sharedRequest [⟨[], some 1⟩, ⟨[], some 1⟩]) initial
          (scheduled 2 [0, 0, 0, 0, 1, 1, 1, 1])).map fun s =>
        (s.pc ((), 0), s.pc ((), 1),
          terminalResponses (sharedRequest [⟨[], some 1⟩, ⟨[], some 1⟩]) () s)) =
      some (.finished, .finished, [.fullContent, .fullContent]) ∧
    ((run (sharedRequest [⟨[], some 0⟩, ⟨[], some 0⟩]) initial
          (scheduled 2 [0, 0, 1, 1, 0, 1, 0, 0, 1, 1])).map fun s =>
        (s.pc ((), 0), s.pc ((), 1),
          terminalResponses (sharedRequest [⟨[], some 0⟩, ⟨[], some 0⟩]) () s)) =
      some (.finished, .finished, [.notFound, .notFound]) := by
  decide

end IpfsLite.Graphsync.Responder
