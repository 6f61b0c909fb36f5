import Mathlib

/-! # Steps that may fail

A sequence of steps in `Except` returns only if each of them does, and fails with the failure of one. -/
namespace IpfsLite.Fallible
set_option autoImplicit false

variable {ε α β : Type}

theorem bind_ok {x : Except ε α} {f : α → Except ε β} {b : β} (h : x >>= f = .ok b) :
    ∃ a, x = .ok a ∧ f a = .ok b := by
  cases x with
  | error e => cases h
  | ok a => exact ⟨a, rfl, h⟩

theorem ok_inj {a b : α} (h : (.ok a : Except ε α) = .ok b) : a = b := Except.ok.inj h

theorem bind_error {x : Except ε α} {f : α → Except ε β} {e : ε} (h : x >>= f = .error e) :
    x = .error e ∨ ∃ a, x = .ok a ∧ f a = .error e := by
  cases x with
  | error e' => exact .inl (congrArg Except.error (Except.error.inj h))
  | ok a => exact .inr ⟨a, rfl, h⟩

theorem map_ok {x : Except ε α} {f : α → β} {b : β} (h : x.map f = .ok b) : ∃ a, x = .ok a ∧ f a = b := by
  cases x with
  | error e => cases h
  | ok a => exact ⟨a, rfl, ok_inj h⟩

theorem map_error {x : Except ε α} {f : α → β} {e : ε} (h : x.map f = .error e) : x = .error e := by
  cases x with
  | error e' => exact congrArg Except.error (Except.error.inj h)
  | ok a => cases h

/-! ## The same step on each element of a list -/

theorem mapM_ok {f : α → Except ε β} {xs : List α} {ys : List β} (h : xs.mapM f = .ok ys) :
    List.Forall₂ (fun x y => f x = .ok y) xs ys := by
  induction xs generalizing ys with
  | nil =>
    rw [List.mapM_nil] at h
    rw [← ok_inj h]
    exact .nil
  | cons x xs ih =>
    rw [List.mapM_cons] at h
    obtain ⟨y, hy, h⟩ := bind_ok h
    obtain ⟨ys', hys, h⟩ := bind_ok h
    rw [← ok_inj h]
    exact .cons hy (ih hys)

theorem mapM_of_forall₂ {f : α → Except ε β} {xs : List α} {ys : List β}
    (h : List.Forall₂ (fun x y => f x = .ok y) xs ys) : xs.mapM f = .ok ys := by
  induction h with
  | nil => rfl
  | cons hx _ ih =>
    rw [List.mapM_cons, hx, ih]
    rfl

/-- The first element that fails ends it. -/
theorem mapM_cons_error {f : α → Except ε β} {x : α} {xs : List α} {e : ε} :
    (x :: xs).mapM f = .error e ↔ f x = .error e ∨ (∃ y, f x = .ok y) ∧ xs.mapM f = .error e := by
  rw [List.mapM_cons]
  cases hx : f x with
  | error e' => simp [bind, Except.bind]
  | ok y =>
    cases hxs : xs.mapM f with
    | error e' => simp [bind, Except.bind]
    | ok ys => simp [bind, Except.bind, pure, Except.pure]

theorem mapM_error {f : α → Except ε β} {xs : List α} {e : ε} (h : xs.mapM f = .error e) :
    ∃ x ∈ xs, f x = .error e := by
  induction xs with
  | nil => cases h
  | cons x xs ih =>
    obtain hx | ⟨-, hxs⟩ := mapM_cons_error.mp h
    · exact ⟨x, List.mem_cons_self, hx⟩
    · obtain ⟨x', hx', he⟩ := ih hxs
      exact ⟨x', List.mem_cons_of_mem x hx', he⟩

end IpfsLite.Fallible
