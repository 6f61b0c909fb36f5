import IpfsLite.Foundations.Reentrant

/-! # An operation from its start to its end

An operation of a re-entrant component is over when the stack is as high again as it was when the
operation was begun. What is used meanwhile is used within its calls, so the rely rule applies to
the part of the stack above it. Nothing here names a particular component. -/
namespace IpfsLite.Reentrant
set_option autoImplicit false

variable {σ κ ω α : Type}

namespace Config

/-- Begun in `c`, the operation comes to its end in `c'` with the last of the moves. -/
structure Completes (op : ω → Prog σ κ Unit) (enabled : List κ → ω → Bool) (o : ω) (c : Config σ κ)
    (ms : List (Move ω)) (c' : Config σ κ) : Prop where
  run : Runs.run (step op enabled) (settle c.frames c.calls (op o c.state)) ms = some c'
  inside : Runs.EveryStep (step op enabled) (fun d _ => c.frames.length < d.frames.length)
    (settle c.frames c.calls (op o c.state)) ms
  ended : c'.frames.length = c.frames.length

variable {op : ω → Prog σ κ Unit} {enabled : List κ → ω → Bool}
  {base : List (κ × (σ → Res σ κ Unit))}

/-- The component seen from above the frames `base`. -/
abbrev stepAbove (op : ω → Prog σ κ Unit) (enabled : List κ → ω → Bool)
    (base : List (κ × (σ → Res σ κ Unit))) : Config σ κ → Move ω → Option (Config σ κ) :=
  step op fun stack => enabled (stack ++ base.map Prod.fst)

theorem settle_above (upper : List (κ × (σ → Res σ κ Unit))) (calls : List κ) (r : Res σ κ Unit) :
    settle (upper ++ base) calls r =
      ⟨(settle upper calls r).state, (settle upper calls r).frames ++ base, (settle upper calls r).calls⟩ := by
  cases r <;> rfl

theorem step_above {c c' : Config σ κ} {upper : List (κ × (σ → Res σ κ Unit))} {m : Move ω}
    (hframes : c.frames = upper ++ base) (hupper : upper ≠ []) (hs : step op enabled c m = some c') :
    ∃ upper', c'.frames = upper' ++ base ∧
      stepAbove op enabled base ⟨c.state, upper, c.calls⟩ m = some ⟨c'.state, upper', c'.calls⟩ := by
  obtain ⟨s, frames, calls⟩ := c
  subst hframes
  cases m with
  | invoke o =>
    have hpending : (⟨s, upper ++ base, calls⟩ : Config σ κ).pending =
        upper.map Prod.fst ++ base.map Prod.fst := List.map_append
    simp only [step, hpending] at hs
    by_cases hen : enabled (upper.map Prod.fst ++ base.map Prod.fst) o = true
    · rw [if_pos hen, Option.some.injEq, settle_above] at hs
      subst hs
      exact ⟨_, rfl, if_pos hen⟩
    · rw [if_neg hen] at hs
      cases hs
  | ret =>
    cases upper with
    | nil => exact absurd rfl hupper
    | cons f upper =>
      simp only [step, List.cons_append, Option.some.injEq, settle_above] at hs ⊢
      subst hs
      exact ⟨_, rfl, rfl⟩

theorem run_above {ms : List (Move ω)} {c c' : Config σ κ} {upper : List (κ × (σ → Res σ κ Unit))}
    (hframes : c.frames = upper ++ base)
    (hinside : Runs.EveryStep (step op enabled) (fun d _ => base.length < d.frames.length) c ms)
    (hr : Runs.run (step op enabled) c ms = some c') :
    ∃ upper', c'.frames = upper' ++ base ∧
      Runs.run (stepAbove op enabled base) ⟨c.state, upper, c.calls⟩ ms = some ⟨c'.state, upper', c'.calls⟩ ∧
      Runs.EveryStep (stepAbove op enabled base) (fun d _ => d.frames ≠ []) ⟨c.state, upper, c.calls⟩ ms := by
  induction ms generalizing c upper with
  | nil =>
    rw [Runs.run_nil, Option.some.injEq] at hr
    exact ⟨upper, hr ▸ hframes, by rw [Runs.run_nil, hr], trivial⟩
  | cons m ms ih =>
    obtain ⟨d, hd, hr'⟩ := Runs.run_cons_some hr
    have hupper : upper ≠ [] := by
      rintro rfl
      have hlen : base.length < c.frames.length := hinside.1
      rw [hframes, List.nil_append] at hlen
      exact lt_irrefl _ hlen
    obtain ⟨mid, hmid, hstep⟩ := step_above hframes hupper hd
    obtain ⟨upper', hframes', hrun, hevery⟩ := ih hmid (hinside.2 d hd) hr'
    refine ⟨upper', hframes', ?_, hupper, fun e he => ?_⟩
    · rw [Runs.run_cons, hstep]
      exact hrun
    · rw [hstep, Option.mem_some_iff] at he
      exact he ▸ hevery

end Config

/-- A program that meets a specification has an end that meets it. -/
theorem Meets.inhabited {R : Trace σ κ → Trace σ κ → Prop} {V : κ → Trace σ κ → Prop}
    {Q : α → Trace σ κ → Prop} (hrefl : ∀ x, R x x) :
    ∀ {r : Res σ κ α} {calls : List κ}, Meets R V Q r calls → ∃ a y, Q a y
  | .done a s, calls, hm => ⟨a, (s, calls), hm⟩
  | .call _ _ _, _, hm => (hm.2 _ (hrefl _)).inhabited hrefl

/-- **The completion rule.** If the operation brings about `Q` whatever `R` lets happen during its
calls, and what is used during its calls keeps to `R`, then `Q` holds when the operation is over. -/
theorem Config.Completes.rule {R : Trace σ κ → Trace σ κ → Prop} {V : List κ → Trace σ κ → Prop}
    {Q : Trace σ κ → Prop} {op : ω → Prog σ κ Unit} {enabled : List κ → ω → Bool} {o : ω}
    {c c' : Config σ κ} {ms : List (Move ω)} (hrefl : ∀ x, R x x)
    (htrans : ∀ x y z, R x y → R y z → R x z) (hstable : ∀ st x y, V st x → R x y → V st y)
    (hQ : ∀ x y, Q x → R x y → Q y)
    (hbegin : Meets R (fun d => V [d]) (fun _ => Q) (op o c.state) c.calls)
    (hop : ∀ (d : Config σ κ) (p : ω), d.frames ≠ [] → V d.pending (d.state, d.calls) →
      Meets R (fun e => V (e :: d.pending)) (fun _ => R (d.state, d.calls)) (op p d.state) d.calls)
    (h : Completes op enabled o c ms c') : Q (c'.state, c'.calls) := by
  let V' (stack : List κ) (y : Trace σ κ) : Prop := List.casesOn stack (Q y) fun d stack => V (d :: stack) y
  have hstable' (stack : List κ) (x y : Trace σ κ) (hx : V' stack x) (hxy : R x y) : V' stack y := by
    cases stack with
    | nil => exact hQ x y hx hxy
    | cons d stack => exact hstable _ x y hx hxy
  have hsettled := @Config.settle_above _ _ c.frames [] c.calls (op o c.state)
  rw [List.nil_append] at hsettled
  obtain ⟨upper, hframes, hrun, hevery⟩ := @Config.run_above _ _ _ _ _ _ _ _ _
    (Config.settle [] c.calls (op o c.state)).frames (by rw [hsettled]) h.inside h.run
  have hupper : upper = [] := by
    have hlen := h.ended
    rw [hframes, List.length_append] at hlen
    exact List.eq_nil_of_length_eq_zero (by omega)
  obtain ⟨-, b, hb⟩ := hbegin.inhabited hrefl
  have hfirst : Sound R V' (Config.settle [] c.calls (op o c.state)) :=
    Sound.settle (b := b) hrefl htrans hstable' hb .nil hbegin
  rw [hsettled] at hrun hevery
  have hsound := Sound.run hrefl htrans hstable' ?_ hfirst hevery hrun
  · have hvalid := hsound.valid
    rw [hupper] at hvalid
    exact hvalid
  · intro d p hd _ hV
    obtain ⟨s, frames, calls⟩ := d
    cases frames with
    | nil => exact absurd rfl hd
    | cons f frames => exact hop ⟨s, f :: frames, calls⟩ p hd hV

end IpfsLite.Reentrant
