import IpfsLite.Foundations.Reentrant

/-! # Judgements on programs

A judgement `K x p` says something of the program `p` begun in `x`. It is a `Logic` when it goes
through the constructs of programs: `S x t` are the steps without a call that it admits, and a
program that is judged well can get from `x` to `y` only if `G x y`. What is proved about the
programs of a component from these rules holds of every such judgement: of `Keeps`, of the calls a
program makes, and of what it preserves from call to call. -/
namespace IpfsLite.Reentrant
set_option autoImplicit false

variable {σ κ ω : Type}

structure Logic (K : ∀ {α : Type}, Trace σ κ → Prog σ κ α → Prop)
    (G : Trace σ κ → Trace σ κ → Prop) (S : Trace σ κ → σ → Prop) : Prop where
  refl (x : Trace σ κ) : G x x
  trans {x y z : Trace σ κ} : G x y → G y z → G x z
  pure {x : Trace σ κ} {α : Type} (a : α) : K x (Pure.pure a)
  get {x : Trace σ κ} {α : Type} {f : σ → Prog σ κ α} : K x (f x.1) → K x (Prog.get >>= f)
  /-- a program that makes no call is one step -/
  straight {x : Trace σ κ} {α : Type} {p : Prog σ κ α} {a : α} {t : σ} : p x.1 = .done a t → S x t → K x p
  modify_bind {x : Trace σ κ} {f : σ → σ} {α : Type} {p : Unit → Prog σ κ α} :
    S x (f x.1) → K (f x.1, x.2) (p ()) → K x (Prog.modify f >>= p)
  bind {x : Trace σ κ} {α β : Type} {p : Prog σ κ α} {f : α → Prog σ κ β} :
    K x p → (∀ a y, G x y → K y (f a)) → K x (p >>= f)

namespace Logic
variable {K : ∀ {α : Type}, Trace σ κ → Prog σ κ α → Prop} {G : Trace σ κ → Trace σ κ → Prop}
  {S : Trace σ κ → σ → Prop} {x : Trace σ κ}

theorem modify (h : Logic K G S) {f : σ → σ} (hf : S x (f x.1)) : K x (Prog.modify f) :=
  h.straight rfl hf

theorem when (h : Logic K G S) {c : Prop} [Decidable c] {p : Prog σ κ Unit} (hp : c → K x p) :
    K x (Prog.when c p) := by
  unfold Prog.when
  by_cases hc : c
  · rw [if_pos hc]
    exact hp hc
  · rw [if_neg hc]
    exact h.pure ()

theorem ite {α : Type} {c : Prop} [Decidable c] {p q : Prog σ κ α} (hp : c → K x p) (hq : ¬c → K x q) :
    K x (if c then p else q) := by
  by_cases hc : c
  · rw [if_pos hc]
    exact hp hc
  · rw [if_neg hc]
    exact hq hc

theorem forM {β : Type} (h : Logic K G S) {f : β → Prog σ κ PUnit} {bs : List β}
    (hf : ∀ b ∈ bs, ∀ y, G x y → K y (f b)) : K x (bs.forM f) := by
  induction bs generalizing x with
  | nil => exact h.pure PUnit.unit
  | cons b bs ih =>
    refine h.bind (hf b List.mem_cons_self x (h.refl x)) fun _ y hxy => ih fun c hc z hyz => ?_
    exact hf c (List.mem_cons_of_mem b hc) z (h.trans hxy hyz)

end Logic

/-! ## Rely and guarantee -/

theorem Rely.logic {R G : Trace σ κ → Trace σ κ → Prop} {V : κ → Trace σ κ → Prop}
    {I : Trace σ κ → Prop} (h : Rely R G I) :
    Logic (fun x p => Keeps R G V I x p) G fun x t => I x → G x (t, x.2) where
  refl := h.refl
  trans := h.trans
  pure := Keeps.pure h
  get := Keeps.get
  straight hp hf hI := by
    rw [hp]
    exact hf hI
  modify_bind := Keeps.modify_bind h
  bind := Keeps.bind h

/-! ## Which calls a program makes -/

/-- Whatever happens during its calls, the program makes only calls of `P`. -/
def Only {α : Type} (P : κ → Prop) : Res σ κ α → Prop
  | .done _ _ => True
  | .call c _ k => P c ∧ ∀ s, Only P (k s)

section
variable {P : κ → Prop}

theorem Only.bind {α β : Type} {f : α → σ → Res σ κ β} (hf : ∀ a s, Only P (f a s)) :
    ∀ {r : Res σ κ α}, Only P r → Only P (r.bind f)
  | .done a s, _ => hf a s
  | .call _ _ _, hr => ⟨hr.1, fun s => (hr.2 s).bind hf⟩

theorem Only.logic : Logic (fun (x : Trace σ κ) p => Only P (p x.1)) (fun _ _ => True) fun _ _ => True where
  refl _ := trivial
  trans _ _ := trivial
  pure _ := trivial
  get h := h
  straight hp _ := by
    rw [hp]
    trivial
  modify_bind _ h := h
  bind {x _ _ _ f} hp hf := Only.bind (f := fun a s => f a s) (fun a s => hf a (s, x.2) trivial) hp

theorem Only.calls {α : Type} {R : Trace σ κ → Trace σ κ → Prop} :
    ∀ {r : Res σ κ α} (calls : List κ), Only P r → Meets R (fun c _ => P c) (fun _ _ => True) r calls
  | .done _ _, _, _ => trivial
  | .call _ _ _, _, hr => ⟨hr.1, fun y _ => Only.calls y.2 (hr.2 y.1)⟩

/-- Calls are added, all of `P`. -/
def Adds (P : κ → Prop) (x y : Trace σ κ) : Prop := ∃ added, y.2 = x.2 ++ added ∧ ∀ c ∈ added, P c

theorem Adds.refl (x : Trace σ κ) : Adds P x x := ⟨[], (List.append_nil _).symm, fun _ h => by cases h⟩

theorem Adds.trans {x y z : Trace σ κ} (h : Adds P x y) (h' : Adds P y z) : Adds P x z := by
  obtain ⟨added, hy, hadded⟩ := h
  obtain ⟨more, hz, hmore⟩ := h'
  refine ⟨added ++ more, by rw [hz, hy, List.append_assoc], fun c hc => ?_⟩
  rcases List.mem_append.mp hc with hc | hc
  · exact hadded c hc
  · exact hmore c hc

/-- If what happens during the calls adds nothing else, the whole program adds calls of `P`. -/
theorem Only.meets {α : Type} {x : Trace σ κ} : ∀ {r : Res σ κ α} {calls : List κ}, Only P r →
    (∀ s, Adds P x (s, calls)) →
    Meets (Adds P) (fun c y => P c ∧ Adds P x y) (fun _ y => Adds P x y) r calls
  | .done _ s, _, _, hx => hx s
  | .call c s k, calls, hr, hx => by
    have hcall : Adds P x (s, calls ++ [c]) :=
      (hx s).trans ⟨[c], rfl, fun d hd => List.mem_singleton.mp hd ▸ hr.1⟩
    refine ⟨⟨hr.1, hcall⟩, fun y hy => Only.meets (hr.2 y.1) fun s' => ?_⟩
    obtain ⟨added, hy', hadded⟩ := hcall.trans hy
    exact ⟨added, hy', hadded⟩

end

/-! ## What a program preserves from call to call -/

/-- Where the program runs from a state of `D`, from its start or from the return of a call, it gets
to a state of `D`, at its end or at its next call. `b` says that it is begun in `D`. -/
def Holds {α : Type} (D : σ → Prop) (b : Prop) : Res σ κ α → Prop
  | .done _ s => b → D s
  | .call _ s k => (b → D s) ∧ ∀ s', Holds D (D s') (k s')

section
variable {D : σ → Prop}

theorem Holds.imp {α : Type} {b b' : Prop} (hb : b' → b) : ∀ {r : Res σ κ α}, Holds D b r → Holds D b' r
  | .done _ _, h => fun hb' => h (hb hb')
  | .call _ _ _, h => ⟨fun hb' => h.1 (hb hb'), h.2⟩

theorem Holds.bind {α β : Type} {f : α → σ → Res σ κ β} (hf : ∀ a s, Holds D (D s) (f a s)) :
    ∀ {b : Prop} {r : Res σ κ α}, Holds D b r → Holds D b (r.bind f)
  | _, .done a s, h => (hf a s).imp h
  | _, .call _ _ _, h => ⟨h.1, fun s => (h.2 s).bind hf⟩

abbrev Steady (D : σ → Prop) {α : Type} (x : Trace σ κ) (p : Prog σ κ α) : Prop := Holds D (D x.1) (p x.1)

theorem Steady.logic : Logic (fun (x : Trace σ κ) p => Steady D x p) (fun _ _ => True)
    fun x t => D x.1 → D t where
  refl _ := trivial
  trans _ _ := trivial
  pure _ := id
  get h := h
  straight hp hf := by
    rw [Steady, hp]
    exact hf
  modify_bind hf hp := Holds.imp hf hp
  bind {x _ _ _ f} hp hf := Holds.bind (f := fun a s => f a s) (fun a s => hf a (s, x.2) trivial) hp

theorem Steady.call {x : Trace σ κ} (c : κ) : Steady D x (Prog.call c : Prog σ κ Unit) :=
  ⟨id, fun _ => id⟩

/-- The pending programs preserve `D` too. -/
def SteadyFrames (D : σ → Prop) (c : Config σ κ) : Prop :=
  ∀ f ∈ c.frames, ∀ s, Holds D (D s) (f.2 s)

theorem SteadyFrames.settle {c : Config σ κ} (h : SteadyFrames D c) {b : Prop} {calls : List κ}
    {r : Res σ κ Unit} (hr : Holds D b r) :
    SteadyFrames D (Config.settle c.frames calls r) ∧ (b → D (Config.settle c.frames calls r).state) := by
  cases r with
  | done a s => exact ⟨h, hr⟩
  | call d s k =>
    refine ⟨fun f hf => ?_, hr.1⟩
    rcases List.mem_cons.mp hf with rfl | hf
    · exact hr.2
    · exact h f hf

/-- **The rule of a lasting fact.** If every operation that is used preserves `D` from call to call,
then from any state of the run on `D` holds if it holds there. -/
theorem SteadyFrames.run {op : ω → Prog σ κ Unit} {enabled : List κ → ω → Bool}
    {ok : Config σ κ → Move ω → Prop}
    (hop : ∀ c o, ok c (.invoke o) → Steady D (c.state, c.calls) (op o)) {c₀ c : Config σ κ}
    (h₀ : SteadyFrames D c₀) {ms : List (Move ω)} (hok : Runs.EveryStep (Config.step op enabled) ok c₀ ms)
    (hr : Runs.run (Config.step op enabled) c₀ ms = some c) :
    SteadyFrames D c ∧ (D c₀.state → D c.state) := by
  refine Runs.run_invariant (fun c => SteadyFrames D c ∧ (D c₀.state → D c.state)) ?_ ⟨h₀, id⟩ hok hr
  rintro c m c' ⟨hframes, hD⟩ hm hs
  cases m with
  | invoke o =>
    simp only [Config.step] at hs
    by_cases hen : enabled c.pending o = true
    · rw [if_pos hen, Option.some.injEq] at hs
      obtain ⟨hframes', hD'⟩ := @SteadyFrames.settle _ _ D c hframes _ c.calls _ (hop c o hm)
      exact hs ▸ ⟨hframes', fun h => hD' (hD h)⟩
    · rw [if_neg hen] at hs
      exact absurd hs (Option.some_ne_none c').symm
  | ret =>
    obtain ⟨s, fs, calls⟩ := c
    cases fs with
    | nil => exact absurd hs (Option.some_ne_none c').symm
    | cons f rest =>
      obtain ⟨d, k⟩ := f
      simp only [Config.step, Option.some.injEq] at hs
      have hrest : SteadyFrames D (⟨s, rest, calls⟩ : Config σ κ) := fun g hg =>
        hframes g (List.mem_cons_of_mem _ hg)
      obtain ⟨hframes', hD'⟩ := @SteadyFrames.settle _ _ D _ hrest _ calls _ (hframes (d, k) List.mem_cons_self s)
      exact hs ▸ ⟨hframes', fun h => hD' (hD h)⟩

end
end IpfsLite.Reentrant
