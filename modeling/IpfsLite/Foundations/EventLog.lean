import Mathlib

/-! # Logs of events

Events in the order in which they happened. A request for silence is put as a pair: `closes` says
which event ends the matter, given what came before it, and `loud` which events may not come after.
Nothing here names a particular component. -/
namespace IpfsLite.EventLog
set_option autoImplicit false

variable {ε : Type}

/-- The log has an event that ends the matter. -/
def Closed (closes : List ε → ε → Prop) (log : List ε) : Prop :=
  ∃ before e after, log = before ++ e :: after ∧ closes before e

/-- After such an event there is no loud one. -/
def SilentAfter (closes : List ε → ε → Prop) (loud : ε → Prop) (log : List ε) : Prop :=
  ∀ before e after, log = before ++ e :: after → closes before e → ∀ e' ∈ after, ¬loud e'

variable {closes : List ε → ε → Prop} {loud : ε → Prop} {log : List ε} {e : ε}

theorem not_closed_nil : ¬Closed closes [] := by
  rintro ⟨before, e, after, h, -⟩
  exact absurd h.symm (by simp)

theorem silentAfter_nil : SilentAfter closes loud [] := by
  intro before e after h
  exact absurd h.symm (by simp)

/-- An event of a log with one more event is the last one, or was there before. -/
theorem split_append_singleton {before after : List ε} {x : ε} (h : log ++ [e] = before ++ x :: after) :
    (after = [] ∧ before = log ∧ x = e) ∨ ∃ after', after = after' ++ [e] ∧ log = before ++ x :: after' := by
  rcases List.eq_nil_or_concat after with rfl | ⟨after', y, rfl⟩
  · obtain ⟨hlog, he⟩ := List.append_inj' h rfl
    cases he
    exact .inl ⟨rfl, hlog.symm, rfl⟩
  · rw [List.concat_eq_append, ← List.cons_append, ← List.append_assoc] at h
    obtain ⟨hlog, he⟩ := List.append_inj' h rfl
    cases he
    exact .inr ⟨after', by rw [List.concat_eq_append], hlog⟩

theorem closed_append : Closed closes (log ++ [e]) ↔ Closed closes log ∨ closes log e := by
  constructor
  · rintro ⟨before, x, after, h, hx⟩
    rcases split_append_singleton h with ⟨-, rfl, rfl⟩ | ⟨after', -, hlog⟩
    · exact .inr hx
    · exact .inl ⟨before, x, after', hlog, hx⟩
  · rintro (⟨before, x, after, rfl, hx⟩ | he)
    · exact ⟨before, x, after ++ [e], by rw [List.append_assoc, List.cons_append], hx⟩
    · exact ⟨log, e, [], rfl, he⟩

theorem Closed.mono {closes' : List ε → ε → Prop} (h : ∀ before e, closes before e → closes' before e)
    (hc : Closed closes log) : Closed closes' log := by
  obtain ⟨before, e, after, hlog, he⟩ := hc
  exact ⟨before, e, after, hlog, h before e he⟩

/-- Silence is kept if the new event is not loud, or nothing was closed. -/
theorem SilentAfter.append (h : SilentAfter closes loud log) (he : loud e → ¬Closed closes log) :
    SilentAfter closes loud (log ++ [e]) := by
  intro before x after hlog hx y hy hloud
  rcases split_append_singleton hlog with ⟨rfl, -, -⟩ | ⟨after', rfl, hlog'⟩
  · exact absurd hy List.not_mem_nil
  · rcases List.mem_append.mp hy with hy | hy
    · exact h before x after' hlog' hx y hy hloud
    · rw [List.mem_singleton.mp hy] at hloud
      exact he hloud ⟨before, x, after', hlog', hx⟩

/-- A closing event that is itself loud occurs once at most. -/
theorem SilentAfter.count_le_one [DecidableEq ε] (h : SilentAfter closes loud log)
    (hcloses : ∀ before, closes before e) (hloud : loud e) : log.count e ≤ 1 := by
  by_contra hmore
  obtain ⟨before, after, rfl⟩ := List.append_of_mem (List.count_pos_iff.mp (by omega : 0 < log.count e))
  have hafter : e ∉ after := fun hmem => h before e after rfl (hcloses before) e hmem hloud
  have hbefore : e ∈ before := by
    apply List.count_pos_iff.mp
    rw [List.count_append, List.count_cons_self, List.count_eq_zero_of_not_mem hafter] at hmore
    omega
  obtain ⟨first, rest, rfl⟩ := List.append_of_mem hbefore
  refine h first e (rest ++ e :: after) (by simp) (hcloses first) e ?_ hloud
  exact List.mem_append_right rest List.mem_cons_self

/-! ## Reasons -/

/-- Every event has a reason in what came before it. -/
def Founded (reason : List ε → ε → Prop) (log : List ε) : Prop :=
  ∀ before e after, log = before ++ e :: after → reason before e

theorem founded_nil {reason : List ε → ε → Prop} : Founded reason [] := by
  intro before e after h
  exact absurd h.symm (by simp)

theorem Founded.append {reason : List ε → ε → Prop} (h : Founded reason log) (he : reason log e) :
    Founded reason (log ++ [e]) := by
  intro before x after hlog
  obtain ⟨-, rfl, rfl⟩ | ⟨after', -, hlog'⟩ := split_append_singleton hlog
  · exact he
  · exact h before x after' hlog'

theorem Founded.of_mem {reason : List ε → ε → Prop} (h : Founded reason log) (he : e ∈ log) :
    ∃ before, reason before e := by
  obtain ⟨before, after, hlog⟩ := List.append_of_mem he
  exact ⟨before, h before e after hlog⟩

end IpfsLite.EventLog
