import IpfsLite.Foundations.Reentrant

/-! # Operations that do their work at once

A program changes a view of the state before its first call, if at all; what comes after a call leaves
the view as it finds it. Seen through the view a re-entrant component is then one whose operations are
atomic. Nothing here names a particular component. -/
namespace IpfsLite.Reentrant
set_option autoImplicit false

variable {σ κ α β ω υ : Type}

/-- The view is `b` where the program stops first, and every later part leaves it alone. -/
def Settles (view : σ → υ) (b : υ) : Res σ κ α → Prop
  | .done _ s => view s = b
  | .call _ s k => view s = b ∧ ∀ t, Settles view (view t) (k t)

section
variable {view : σ → υ} {b : υ}

theorem Settles.bind {f : α → σ → Res σ κ β} (hf : ∀ a t, Settles view (view t) (f a t)) :
    ∀ {b : υ} {r : Res σ κ α}, Settles view b r → Settles view b (r.bind f)
  | _, .done a s, h => by
    have hs : view s = _ := h
    exact hs ▸ hf a s
  | _, .call _ _ _, h => ⟨h.1, fun t => (h.2 t).bind hf⟩

theorem Settles.call (c : κ) (s : σ) : Settles view (view s) (Prog.call c s) :=
  ⟨rfl, fun _ => rfl⟩

theorem Settles.forM {p : α → Prog σ κ PUnit} (hp : ∀ a t, Settles view (view t) (p a t)) (as : List α)
    (s : σ) : Settles view (view s) (as.forM p s) := by
  induction as generalizing s with
  | nil => exact rfl
  | cons a as ih => exact (hp a s).bind fun _ t => ih t

theorem Settles.when {c : Prop} [Decidable c] {p : Prog σ κ Unit} {s : σ}
    (hp : c → Settles view (view s) (p s)) : Settles view (view s) (Prog.when c p s) := by
  unfold Prog.when
  by_cases hc : c
  · rw [if_pos hc]
    exact hp hc
  · rw [if_neg hc]
    rfl

end

namespace Config
variable (view : σ → υ)

/-- The calls that are pending leave the view alone when they return. -/
def Settled (c : Config σ κ) : Prop := ∀ e ∈ c.frames, ∀ t, Settles view (view t) (e.2 t)

variable {view}

theorem settled_start (s : σ) : Settled view (start s : Config σ κ) :=
  fun _ he => absurd he List.not_mem_nil

theorem settle_settled {frames : List (κ × (σ → Res σ κ Unit))} {calls : List κ} {b : υ}
    {r : Res σ κ Unit} (hframes : ∀ e ∈ frames, ∀ t, Settles view (view t) (e.2 t))
    (hr : Settles view b r) :
    Settled view (settle frames calls r) ∧ view (settle frames calls r).state = b := by
  cases r with
  | done a s => exact ⟨hframes, hr⟩
  | call c s k => exact ⟨List.forall_mem_cons.mpr ⟨hr.2, hframes⟩, hr.1⟩

/-- What the view is after a move, if the operations do their work at once. -/
def viewAfter (view : σ → υ) (effect : ω → σ → υ) (s : σ) : Move ω → υ
  | .invoke o => effect o s
  | .ret => view s

theorem step_settled {op : ω → Prog σ κ Unit} {enabled : List κ → ω → Bool} {effect : ω → σ → υ}
    (hop : ∀ o s, Settles view (effect o s) (op o s)) {c c' : Config σ κ} {m : Move ω}
    (hc : Settled view c) (hs : step op enabled c m = some c') :
    Settled view c' ∧ view c'.state = viewAfter view effect c.state m := by
  obtain ⟨s, frames, calls⟩ := c
  cases m with
  | invoke o =>
    simp only [step] at hs
    split at hs
    · cases hs
      exact settle_settled hc (hop o s)
    · cases hs
  | ret =>
    cases frames with
    | nil => cases hs
    | cons e rest =>
      obtain ⟨hfirst, hrest⟩ := List.forall_mem_cons.mp hc
      cases hs
      exact settle_settled hrest (hfirst s)

end Config

/-! ## Parts

The parts of a program between its calls, each as a move from the state it begins in. -/

/-- Every part is a move of `G`. -/
def Parts (G : σ → σ → Prop) (s : σ) : Res σ κ α → Prop
  | .done _ s' => G s s'
  | .call _ s' k => G s s' ∧ ∀ t, Parts G t (k t)

section
variable {G : σ → σ → Prop} {s : σ}

theorem Parts.after (htrans : ∀ x y z, G x y → G y z → G x z) {s' : σ} (h : G s s') :
    ∀ {r : Res σ κ α}, Parts G s' r → Parts G s r
  | .done _ _, hr => htrans _ _ _ h hr
  | .call _ _ _, hr => ⟨htrans _ _ _ h hr.1, hr.2⟩

theorem Parts.bind (htrans : ∀ x y z, G x y → G y z → G x z) {f : α → σ → Res σ κ β}
    (hf : ∀ a t, Parts G t (f a t)) : ∀ {s : σ} {r : Res σ κ α}, Parts G s r → Parts G s (r.bind f)
  | _, .done a t, h => (hf a t).after htrans h
  | _, .call _ _ _, h => ⟨h.1, fun t => (h.2 t).bind htrans hf⟩

theorem Parts.call (hrefl : ∀ x, G x x) (c : κ) (s : σ) : Parts G s (Prog.call c s) :=
  ⟨hrefl s, fun t => hrefl t⟩

theorem Parts.forM (hrefl : ∀ x, G x x) (htrans : ∀ x y z, G x y → G y z → G x z) {p : α → Prog σ κ PUnit}
    (hp : ∀ a t, Parts G t (p a t)) (as : List α) (s : σ) : Parts G s (as.forM p s) := by
  induction as generalizing s with
  | nil => exact hrefl s
  | cons a as ih => exact (hp a s).bind htrans fun _ t => ih t

end

namespace Config

/-- What the pending calls do when they return are moves of `G`. -/
def Parted (G : σ → σ → Prop) (c : Config σ κ) : Prop := ∀ e ∈ c.frames, ∀ t, Parts G t (e.2 t)

theorem parted_start (G : σ → σ → Prop) (s : σ) : Parted G (start s : Config σ κ) :=
  fun _ he => absurd he List.not_mem_nil

theorem settle_parted {G : σ → σ → Prop} {s : σ} {frames : List (κ × (σ → Res σ κ Unit))} {calls : List κ}
    {r : Res σ κ Unit} (hframes : ∀ e ∈ frames, ∀ t, Parts G t (e.2 t)) (hr : Parts G s r) :
    Parted G (settle frames calls r) ∧ G s (settle frames calls r).state := by
  cases r with
  | done a s => exact ⟨hframes, hr⟩
  | call c s k => exact ⟨List.forall_mem_cons.mpr ⟨hr.2, hframes⟩, hr.1⟩

theorem ret_parted {G : σ → σ → Prop} {op : ω → Prog σ κ Unit} {enabled : List κ → ω → Bool}
    {c c' : Config σ κ} (hc : Parted G c) (hs : step op enabled c .ret = some c') :
    Parted G c' ∧ G c.state c'.state := by
  obtain ⟨s, frames, calls⟩ := c
  cases frames with
  | nil => cases hs
  | cons e rest =>
    obtain ⟨hfirst, hrest⟩ := List.forall_mem_cons.mp hc
    cases hs
    exact settle_parted hrest (hfirst s)

end Config
end IpfsLite.Reentrant
