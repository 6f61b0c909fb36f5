import Mathlib

/-! # Runs of a partial step function

A system with explicit interleaving is a partial function `step : σ → α → Option σ`: the action
says which party moves, and `none` says that it cannot. A run is the list of the actions taken.
Nothing here names a particular system. -/
namespace IpfsLite.Runs
set_option autoImplicit false

variable {σ α : Type}

/-- The state after taking the actions in order, `none` when one of them is not enabled. -/
def run (step : σ → α → Option σ) (s : σ) (as : List α) : Option σ := as.foldlM step s

@[simp] theorem run_nil (step : σ → α → Option σ) (s : σ) : run step s [] = some s := rfl

theorem run_cons (step : σ → α → Option σ) (s : σ) (a : α) (as : List α) :
    run step s (a :: as) = (step s a).bind fun s' => run step s' as := rfl

theorem run_step {step : σ → α → Option σ} {s s' : σ} {a : α} (h : step s a = some s') (as : List α) :
    run step s (a :: as) = run step s' as := by
  rw [run_cons, h]
  rfl

theorem run_cons_some {step : σ → α → Option σ} {s t : σ} {a : α} {as : List α}
    (h : run step s (a :: as) = some t) : ∃ s', step s a = some s' ∧ run step s' as = some t := by
  rw [run_cons] at h
  exact Option.bind_eq_some_iff.mp h

theorem run_append (step : σ → α → Option σ) (s : σ) (as bs : List α) :
    run step s (as ++ bs) = (run step s as).bind fun s' => run step s' bs :=
  List.foldlM_append

/-- The state after a run that goes through. -/
def last (step : σ → α → Option σ) (s : σ) (as : List α) : σ := (run step s as).getD s

theorem run_last {step : σ → α → Option σ} {s : σ} {as : List α} (h : (run step s as).isSome = true) :
    run step s as = some (last step s as) := by
  obtain ⟨t, ht⟩ := Option.isSome_iff_exists.mp h
  rw [last, ht, Option.getD_some]

/-- Every step of the run is taken from a state that meets `ok`. -/
def EveryStep (step : σ → α → Option σ) (ok : σ → α → Prop) : σ → List α → Prop
  | _, [] => True
  | s, a :: as => ok s a ∧ ∀ s' ∈ step s a, EveryStep step ok s' as

instance EveryStep.decidable (step : σ → α → Option σ) (ok : σ → α → Prop)
    [∀ s a, Decidable (ok s a)] : ∀ s as, Decidable (EveryStep step ok s as)
  | _, [] => .isTrue trivial
  | s, a :: as =>
    have : ∀ s', Decidable (EveryStep step ok s' as) := fun s' => decidable step ok s' as
    inferInstanceAs (Decidable (ok s a ∧ ∀ s' ∈ step s a, EveryStep step ok s' as))

theorem everyStep_true {step : σ → α → Option σ} (s : σ) (as : List α) :
    EveryStep step (fun _ _ => True) s as := by
  induction as generalizing s with
  | nil => trivial
  | cons a as ih => exact ⟨trivial, fun s' _ => ih s'⟩

/-- Every state that the run comes through meets `good`, the first and the last included. -/
def EveryState (step : σ → α → Option σ) (good : σ → Prop) : σ → List α → Prop
  | s, [] => good s
  | s, a :: as => good s ∧ ∀ s' ∈ step s a, EveryState step good s' as

theorem EveryState.first {step : σ → α → Option σ} {good : σ → Prop} {s : σ} {as : List α}
    (h : EveryState step good s as) : good s := by
  cases as with
  | nil => exact h
  | cons a as => exact h.1

theorem EveryState.run {step : σ → α → Option σ} {good : σ → Prop} {s t : σ} {as bs : List α}
    (h : EveryState step good s (as ++ bs)) (hr : run step s as = some t) : good t := by
  induction as generalizing s with
  | nil =>
    rw [run_nil, Option.some.injEq] at hr
    exact hr ▸ h.first
  | cons a as ih =>
    obtain ⟨s', ha, hr'⟩ := run_cons_some hr
    exact ih (h.2 s' ha) hr'

/-- What a step preserves exactly when it is admissible holds throughout exactly the runs of
admissible steps. -/
theorem everyState_iff_everyStep {step : σ → α → Option σ} {good : σ → Prop} {ok : σ → α → Prop}
    (inv : σ → Prop) (hinv : ∀ s a s', inv s → step s a = some s' → inv s')
    (hok : ∀ s a, inv s → good s → ((∀ s' ∈ step s a, good s') ↔ ok s a)) {s : σ} {as : List α}
    (hs : inv s) (hgood : good s) : EveryState step good s as ↔ EveryStep step ok s as := by
  induction as generalizing s with
  | nil => exact iff_of_true hgood trivial
  | cons a as ih =>
    have hnext := hok s a hs hgood
    constructor
    · rintro ⟨-, hall⟩
      have hstep : ∀ s' ∈ step s a, good s' := fun s' hs' => (hall s' hs').first
      exact ⟨hnext.mp hstep, fun s' hs' =>
        (ih (hinv s a s' hs hs') (hstep s' hs')).mp (hall s' hs')⟩
    · rintro ⟨hadmissible, hall⟩
      have hstep := hnext.mpr hadmissible
      exact ⟨hgood, fun s' hs' => (ih (hinv s a s' hs hs') (hstep s' hs')).mpr (hall s' hs')⟩

/-- The run rule: what the first state has and every admissible step preserves, the last has. -/
theorem run_invariant {step : σ → α → Option σ} {ok : σ → α → Prop} (inv : σ → Prop)
    (hstep : ∀ s a s', inv s → ok s a → step s a = some s' → inv s') {s t : σ} {as : List α}
    (hs : inv s) (hok : EveryStep step ok s as) (hr : run step s as = some t) : inv t := by
  induction as generalizing s with
  | nil =>
    rw [run_nil, Option.some.injEq] at hr
    exact hr ▸ hs
  | cons a as ih =>
    obtain ⟨s', ha, hr'⟩ := run_cons_some hr
    exact ih (hstep s a s' hs hok.1 ha) (hok.2 s' ha) hr'

/-- What the invariant says of every state holds of the states that a run of admissible steps comes
through. -/
theorem everyState_of_invariant {step : σ → α → Option σ} {ok : σ → α → Prop} {good : σ → Prop}
    (inv : σ → Prop) (hstep : ∀ s a s', inv s → ok s a → step s a = some s' → inv s')
    (hgood : ∀ s, inv s → good s) {s : σ} {as : List α} (hs : inv s) (hok : EveryStep step ok s as) :
    EveryState step good s as := by
  induction as generalizing s with
  | nil => exact hgood s hs
  | cons a as ih => exact ⟨hgood s hs, fun s' hs' => ih (hstep s a s' hs hok.1 hs') (hok.2 s' hs')⟩

/-- What the invariant says of every admissible step holds of the steps of the run. -/
theorem everyStep_of_invariant {step : σ → α → Option σ} {ok good : σ → α → Prop} (inv : σ → Prop)
    (hstep : ∀ s a s', inv s → ok s a → step s a = some s' → inv s')
    (hgood : ∀ s a, inv s → ok s a → good s a) {s : σ} {as : List α} (hs : inv s)
    (hok : EveryStep step ok s as) : EveryStep step good s as := by
  induction as generalizing s with
  | nil => trivial
  | cons a as ih =>
    exact ⟨hgood s a hs hok.1, fun s' hs' => ih (hstep s a s' hs hok.1 hs') (hok.2 s' hs')⟩

/-- Two conditions that the invariant makes one, if they keep it. -/
theorem everyStep_congr {step : σ → α → Option σ} {ok good : σ → α → Prop} (inv : σ → Prop)
    (hstep : ∀ s a s', inv s → ok s a → step s a = some s' → inv s')
    (hiff : ∀ s a, inv s → (good s a ↔ ok s a)) {s : σ} {as : List α} (hs : inv s) :
    EveryStep step good s as ↔ EveryStep step ok s as := by
  induction as generalizing s with
  | nil => exact Iff.rfl
  | cons a as ih =>
    refine Iff.trans (and_congr_left' (hiff s a hs)) (and_congr_right fun hok => ?_)
    exact forall₂_congr fun s' hs' => ih (hstep s a s' hs hok hs')

/-- The deletion rule: if the actions that are kept are matched on the other side and the deleted
ones leave the relation intact, the thinned run goes through and ends in a related state. -/
theorem run_delete {step : σ → α → Option σ} {ok : σ → α → Prop} (keep : α → Bool)
    (rel : σ → σ → Prop)
    (hkeep : ∀ s t a s', rel s t → ok s a → keep a = true → step s a = some s' →
      ∃ t', step t a = some t' ∧ rel s' t')
    (hdrop : ∀ s t a s', rel s t → ok s a → keep a = false → step s a = some s' → rel s' t)
    {s s' t : σ} {as : List α} (hrel : rel s t) (hok : EveryStep step ok s as)
    (hr : run step s as = some s') :
    ∃ t', run step t (as.filter keep) = some t' ∧ rel s' t' := by
  induction as generalizing s t with
  | nil =>
    rw [run_nil, Option.some.injEq] at hr
    exact ⟨t, rfl, hr ▸ hrel⟩
  | cons a as ih =>
    obtain ⟨s₁, ha, hr'⟩ := run_cons_some hr
    cases hk : keep a with
    | true =>
      obtain ⟨t₁, ht, hrel'⟩ := hkeep s t a s₁ hrel hok.1 hk ha
      obtain ⟨t', hrun, hfin⟩ := ih hrel' (hok.2 s₁ ha) hr'
      refine ⟨t', ?_, hfin⟩
      rw [List.filter_cons_of_pos hk, run_cons, ht]
      exact hrun
    | false =>
      obtain ⟨t', hrun, hfin⟩ := ih (hdrop s t a s₁ hrel hok.1 hk ha) (hok.2 s₁ ha) hr'
      refine ⟨t', ?_, hfin⟩
      rw [List.filter_cons_of_neg (by simp [hk])]
      exact hrun

/-! ## Answers

A component that is called answers every call: its step function is total and has a result. -/

section answers
variable {τ β : Type}

/-- What the calls return, one after the other. -/
def answers (call : σ → α → β × σ) : σ → List α → List β
  | _, [] => []
  | s, a :: as => (call s a).1 :: answers call (call s a).2 as

/-- Two components that give related states the same answer give the same answers to every run. -/
theorem answers_eq {f : σ → α → β × σ} {g : τ → α → β × τ} {ok : α → Prop} (rel : σ → τ → Prop)
    (hcall : ∀ s t a, rel s t → ok a → (f s a).1 = (g t a).1 ∧ rel (f s a).2 (g t a).2)
    {s : σ} {t : τ} {as : List α} (hrel : rel s t) (hok : ∀ a ∈ as, ok a) :
    answers f s as = answers g t as := by
  induction as generalizing s t with
  | nil => rfl
  | cons a as ih =>
    obtain ⟨hanswer, hnext⟩ := hcall s t a hrel (hok a List.mem_cons_self)
    rw [answers, answers, hanswer, ih hnext fun b hb => hok b (List.mem_cons_of_mem a hb)]

end answers

end IpfsLite.Runs
