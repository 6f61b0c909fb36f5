import IpfsLite.Foundations.Runs

/-! # Re-entrant components

A component is a state `σ` and programs that change it, and a program may call out (`κ`) before it
is through. While a call is pending its receiver may use the component again, so the state can be
any other when the call returns. `Res` is a program that has been started: a finite tree with a
node for every call. `Config` is the component together with the stack of the calls that are
pending. Nothing here names a particular component. -/
namespace IpfsLite.Reentrant
set_option autoImplicit false

inductive Res (σ κ α : Type) where
  | done (a : α) (s : σ)
  | call (c : κ) (s : σ) (k : σ → Res σ κ α)

variable {σ κ α β ω τ μ : Type}

def Res.bind : Res σ κ α → (α → σ → Res σ κ β) → Res σ κ β
  | .done a s, f => f a s
  | .call c s k, f => .call c s fun s' => (k s').bind f

def Prog (σ κ α : Type) := σ → Res σ κ α

namespace Prog

instance : Monad (Prog σ κ) where
  pure a := fun s => .done a s
  bind p f := fun s => (p s).bind fun a s' => f a s'

def get : Prog σ κ σ := fun s => .done s s

def modify (f : σ → σ) : Prog σ κ Unit := fun s => .done () (f s)

/-- A step that changes the state and has a result. -/
def update (f : σ → σ × α) : Prog σ κ α := fun s => .done (f s).2 (f s).1

def call (c : κ) : Prog σ κ Unit := fun s => .call c s fun s' => .done () s'

/-- A conditional step in the middle of a program. -/
def when (c : Prop) [Decidable c] (p : Prog σ κ Unit) : Prog σ κ Unit := if c then p else pure ()

@[simp] theorem pure_apply (a : α) (s : σ) : (pure a : Prog σ κ α) s = .done a s := rfl

@[simp] theorem bind_apply (p : Prog σ κ α) (f : α → Prog σ κ β) (s : σ) :
    (p >>= f) s = (p s).bind fun a s' => f a s' := rfl

@[simp] theorem get_apply (s : σ) : (get : Prog σ κ σ) s = .done s s := rfl

@[simp] theorem modify_apply (f : σ → σ) (s : σ) :
    (modify f : Prog σ κ Unit) s = .done () (f s) := rfl

@[simp] theorem call_apply (c : κ) (s : σ) :
    (call c : Prog σ κ Unit) s = .call c s fun s' => .done () s' := rfl

end Prog

@[simp] theorem Res.bind_done (a : α) (s : σ) (f : α → σ → Res σ κ β) :
    (Res.done a s : Res σ κ α).bind f = f a s := rfl

@[simp] theorem Res.bind_call (c : κ) (s : σ) (k : σ → Res σ κ α) (f : α → σ → Res σ κ β) :
    (Res.call c s k).bind f = .call c s fun s' => (k s').bind f := rfl

/-- A state and the calls made so far. -/
abbrev Trace (σ κ : Type) := σ × List κ

/-- The program when nobody uses the component during its calls. -/
def Res.undisturbed : Res σ κ α → List κ → Trace σ κ
  | .done _ s, calls => (s, calls)
  | .call c s k, calls => (k s).undisturbed (calls ++ [c])

/-- A program of a component as a program of the system `τ` it is part of: `handler` is what the
system does at a call, and the calls of the component are kept with its state. -/
def Res.embed (view : τ → Trace σ κ) (put : Trace σ κ → τ → τ) (handler : κ → Prog τ μ Unit) :
    Res σ κ α → Prog τ μ α
  | .done a s => fun t => .done a (put (s, (view t).2) t)
  | .call c s k => fun t =>
    (handler c (put (s, (view t).2 ++ [c]) t)).bind fun _ t' =>
      (k (view t').1).embed view put handler t'

/-! ## The component and its pending calls -/

structure Config (σ κ : Type) where
  state : σ
  frames : List (κ × (σ → Res σ κ Unit))
  /-- history: every call made, in order -/
  calls : List κ

inductive Move (ω : Type) where
  | invoke (o : ω)
  /-- the innermost pending call returns -/
  | ret

namespace Config

def start (s : σ) : Config σ κ := ⟨s, [], []⟩

/-- The pending calls, the innermost first. -/
def pending (c : Config σ κ) : List κ := c.frames.map Prod.fst

def settle (frames : List (κ × (σ → Res σ κ Unit))) (calls : List κ) : Res σ κ Unit → Config σ κ
  | .done _ s => ⟨s, frames, calls⟩
  | .call c s k => ⟨s, (c, k) :: frames, calls ++ [c]⟩

/-- `enabled` says which operations may be used at top level and from within a call. -/
def step (op : ω → Prog σ κ Unit) (enabled : List κ → ω → Bool) (c : Config σ κ) :
    Move ω → Option (Config σ κ)
  | .invoke o =>
    if enabled c.pending o = true then some (settle c.frames c.calls (op o c.state)) else none
  | .ret =>
    match c.frames with
    | [] => none
    | (_, k) :: frames => some (settle frames c.calls (k c.state))

end Config

/-! ## What a program does, whatever happens during its calls -/

/-- With `R` what a call may change: `V c` holds when a call `c` is made, and `Q` at the end. -/
def Meets (R : Trace σ κ → Trace σ κ → Prop) (V : κ → Trace σ κ → Prop) (Q : α → Trace σ κ → Prop) :
    Res σ κ α → List κ → Prop
  | .done a s, calls => Q a (s, calls)
  | .call c s k, calls =>
    V c (s, calls ++ [c]) ∧ ∀ y : Trace σ κ, R (s, calls ++ [c]) y → Meets R V Q (k y.1) y.2

section
variable {R : Trace σ κ → Trace σ κ → Prop} {V : κ → Trace σ κ → Prop}

theorem Meets.mono {Q Q' : α → Trace σ κ → Prop} (h : ∀ a y, Q a y → Q' a y) :
    ∀ {r : Res σ κ α} {calls : List κ}, Meets R V Q r calls → Meets R V Q' r calls
  | .done _ _, _, hm => h _ _ hm
  | .call _ _ _, _, hm => ⟨hm.1, fun y hy => (hm.2 y hy).mono h⟩

/-- Every program meets the specification that asks for nothing. -/
theorem Meets.anything : ∀ (r : Res σ κ α) (calls : List κ),
    Meets R (fun _ _ => True) (fun _ _ => True) r calls
  | .done _ _, _ => trivial
  | .call _ _ k, _ => ⟨trivial, fun y _ => Meets.anything (k y.1) y.2⟩

/-- The rule of sequential composition. -/
theorem Meets.bind {Q : β → Trace σ κ → Prop} {f : α → σ → Res σ κ β} :
    ∀ {r : Res σ κ α} {calls : List κ},
      Meets R V (fun a y => Meets R V Q (f a y.1) y.2) r calls → Meets R V Q (r.bind f) calls
  | .done _ _, _, hm => hm
  | .call _ _ _, _, hm => ⟨hm.1, fun y hy => (hm.2 y hy).bind⟩

theorem Meets.seq {Q : β → Trace σ κ → Prop} {p : Prog σ κ α} {f : α → Prog σ κ β} {s : σ}
    {calls : List κ} (h : Meets R V (fun a y => Meets R V Q (f a y.1) y.2) (p s) calls) :
    Meets R V Q ((p >>= f) s) calls :=
  Meets.bind h

theorem Meets.get {Q : α → Trace σ κ → Prop} {f : σ → Prog σ κ α} {s : σ} {calls : List κ}
    (h : Meets R V Q (f s s) calls) : Meets R V Q ((Prog.get >>= f) s) calls := h

theorem Meets.modify {Q : α → Trace σ κ → Prop} {g : σ → σ} {f : Unit → Prog σ κ α} {s : σ}
    {calls : List κ} (h : Meets R V Q (f () (g s)) calls) :
    Meets R V Q ((Prog.modify g >>= f) s) calls := h

theorem Meets.ite {Q : α → Trace σ κ → Prop} {c : Prop} [Decidable c] {p q : Prog σ κ α} {s : σ}
    {calls : List κ} (hp : c → Meets R V Q (p s) calls) (hq : ¬c → Meets R V Q (q s) calls) :
    Meets R V Q ((if c then p else q) s) calls := by
  by_cases hc : c
  · rw [if_pos hc]
    exact hp hc
  · rw [if_neg hc]
    exact hq hc

/-- The rule of a loop over a list: `I` holds of what is left and of the trace. -/
theorem Meets.forM {I : List α → Trace σ κ → Prop} {Q : Trace σ κ → Prop} {f : α → Prog σ κ PUnit}
    (hstep : ∀ a as y, I (a :: as) y → Meets R V (fun _ z => I as z) (f a y.1) y.2)
    (hend : ∀ y, I [] y → Q y) :
    ∀ (as : List α) (y : Trace σ κ), I as y → Meets R V (fun _ => Q) (as.forM f y.1) y.2
  | [], y, hI => hend y hI
  | a :: as, y, hI =>
    Meets.bind ((hstep a as y hI).mono fun _ z hz => Meets.forM hstep hend as z hz)

/-- The rule of a component inside a system: if the handler of a call does to the component no more
than the component's rely allows, what the program does is what it does on its own. `J` is what the
system knows beside. -/
theorem Meets.embed {R' : Trace τ μ → Trace τ μ → Prop} {V' : μ → Trace τ μ → Prop}
    {Q : α → Trace σ κ → Prop} {Q' : α → Trace τ μ → Prop} {view : τ → Trace σ κ}
    {put : Trace σ κ → τ → τ} {handler : κ → Prog τ μ Unit} (J : Trace τ μ → Prop)
    (hcall : ∀ c x y, J y → V c x →
      Meets R' V' (fun _ z => J z ∧ R x (view z.1)) (handler c (put x y.1)) y.2)
    (hdone : ∀ a x y, J y → Q a x → Q' a (put x y.1, y.2)) :
    ∀ (r : Res σ κ α) (y : Trace τ μ), J y → Meets R V Q r (view y.1).2 →
      Meets R' V' Q' (r.embed view put handler y.1) y.2
  | .done a _, y, hJ, hm => hdone a _ y hJ hm
  | .call c _ k, y, hJ, hm =>
    Meets.bind ((hcall c _ y hJ hm.1).mono fun _ z hz =>
      Meets.embed J hcall hdone (k (view z.1).1) z hz.1 (hm.2 _ hz.2))

end

/-- Two specifications at once, when what happens during the calls keeps to both relies. -/
theorem Meets.and {R R' : Trace σ κ → Trace σ κ → Prop} {V : κ → Trace σ κ → Prop} {Q Q' : α → Trace σ κ → Prop} :
    ∀ {r : Res σ κ α} {calls : List κ}, Meets R V Q r calls → Meets R' V Q' r calls →
      Meets (fun x y => R x y ∧ R' x y) V (fun a y => Q a y ∧ Q' a y) r calls
  | .done _ _, _, hm, hm' => ⟨hm, hm'⟩
  | .call _ _ _, _, hm, hm' => ⟨hm.1, fun y hy => (hm.2 y hy.1).and (hm'.2 y hy.2)⟩

/-! ## Rely and guarantee -/

theorem Meets.weaken {R : Trace σ κ → Trace σ κ → Prop} {V V' : κ → Trace σ κ → Prop}
    {Q Q' : α → Trace σ κ → Prop} (hV : ∀ c y, V c y → V' c y) (hQ : ∀ a y, Q a y → Q' a y) :
    ∀ {r : Res σ κ α} {calls : List κ}, Meets R V Q r calls → Meets R V' Q' r calls
  | .done _ _, _, hm => hQ _ _ hm
  | .call _ _ _, _, hm => ⟨hV _ _ hm.1, fun y hy => (hm.2 y hy).weaken hV hQ⟩

section
variable (R G : Trace σ κ → Trace σ κ → Prop) (V : κ → Trace σ κ → Prop) (I : Trace σ κ → Prop)

/-- `G` is a guarantee under which the moves of `R` by others are no harm. -/
structure Rely : Prop where
  refl (x : Trace σ κ) : G x x
  trans {x y z : Trace σ κ} : G x y → G y z → G x z
  absorb {x y : Trace σ κ} : R x y → G x y
  stable {x y : Trace σ κ} : I x → G x y → I y

/-- Begun in `x`, if `I` holds there, the program as a whole is a move of `G`. -/
def Keeps (x : Trace σ κ) (p : Prog σ κ α) : Prop := I x → Meets R V (fun _ y => G x y) (p x.1) x.2

variable {R G V I} {x : Trace σ κ}

theorem Keeps.pure (h : Rely R G I) (a : α) : Keeps R G V I x (pure a) := fun _ => h.refl x

theorem Keeps.get {f : σ → Prog σ κ α} (h : Keeps R G V I x (f x.1)) :
    Keeps R G V I x (Prog.get >>= f) := h

theorem Keeps.modify {f : σ → σ} (h : I x → G x (f x.1, x.2)) : Keeps R G V I x (Prog.modify f) := h

theorem Keeps.call (h : Rely R G I) {c : κ}
    (hc : I x → V c (x.1, x.2 ++ [c]) ∧ G x (x.1, x.2 ++ [c])) : Keeps R G V I x (Prog.call c) :=
  fun hI => ⟨(hc hI).1, fun _ hy => h.trans (hc hI).2 (h.absorb hy)⟩

theorem Keeps.bind (h : Rely R G I) {p : Prog σ κ α} {f : α → Prog σ κ β} (hp : Keeps R G V I x p)
    (hf : ∀ a y, G x y → Keeps R G V I y (f a)) : Keeps R G V I x (p >>= f) := by
  intro hI
  refine Meets.bind ((hp hI).mono fun a y hxy => ?_)
  exact (hf a y hxy (h.stable hI hxy)).mono fun _ z hyz => h.trans hxy hyz

theorem Keeps.modify_bind (h : Rely R G I) {f : σ → σ} {p : Unit → Prog σ κ β}
    (hf : I x → G x (f x.1, x.2)) (hp : Keeps R G V I (f x.1, x.2) (p ())) :
    Keeps R G V I x (Prog.modify f >>= p) := fun hI =>
  (hp (h.stable hI (hf hI))).mono fun _ _ hy => h.trans (hf hI) hy

/-- Several steps at once: the program gets to the state `s` without a call and goes on as `q`. -/
theorem Keeps.reach (h : Rely R G I) {p q : Prog σ κ α} {s : σ} (hp : p x.1 = q s)
    (hs : I x → G x (s, x.2)) (hq : Keeps R G V I (s, x.2) q) : Keeps R G V I x p := by
  intro hI
  rw [hp]
  exact (hq (h.stable hI (hs hI))).mono fun _ _ hy => h.trans (hs hI) hy

theorem Keeps.ite {c : Prop} [Decidable c] {p q : Prog σ κ α} (hp : c → Keeps R G V I x p)
    (hq : ¬c → Keeps R G V I x q) : Keeps R G V I x (if c then p else q) := by
  by_cases hc : c
  · rw [if_pos hc]
    exact hp hc
  · rw [if_neg hc]
    exact hq hc

theorem Keeps.when (h : Rely R G I) {c : Prop} [Decidable c] {p : Prog σ κ Unit}
    (hp : c → Keeps R G V I x p) : Keeps R G V I x (Prog.when c p) :=
  Keeps.ite hp fun _ => Keeps.pure h ()

theorem Keeps.forM (h : Rely R G I) {f : β → Prog σ κ PUnit} {bs : List β}
    (hf : ∀ b ∈ bs, ∀ y, G x y → Keeps R G V I y (f b)) : Keeps R G V I x (bs.forM f) := by
  induction bs generalizing x with
  | nil => exact Keeps.pure h PUnit.unit
  | cons b bs ih =>
    refine Keeps.bind h (hf b List.mem_cons_self x (h.refl x)) fun _ y hxy => ih fun c hc z hyz => ?_
    exact hf c (List.mem_cons_of_mem b hc) z (h.trans hxy hyz)

/-- A guarantee may be weakened. -/
theorem Keeps.mono {G' : Trace σ κ → Trace σ κ → Prop} (hG : ∀ y, G x y → G' x y) {p : Prog σ κ α}
    (hp : Keeps R G V I x p) : Keeps R G' V I x p := fun hI =>
  (hp hI).mono fun _ y hy => hG y hy

/-- So may what is promised at the calls. -/
theorem Keeps.weaken {V' : κ → Trace σ κ → Prop} (hV : ∀ c y, V c y → V' c y) {p : Prog σ κ α}
    (hp : Keeps R G V I x p) : Keeps R G V' I x p := fun hI => (hp hI).weaken hV fun _ _ hy => hy

end

/-! ## Soundness -/

section
variable (R : Trace σ κ → Trace σ κ → Prop) (V : List κ → Trace σ κ → Prop)

/-- What an operation begun in `x` with these calls pending has to bring about: within a call what
`R` allows, at top level `V`. -/
def Ends (stack : List κ) (x y : Trace σ κ) : Prop :=
  match stack with
  | [] => V [] y
  | _ :: _ => R x y

/-- Every pending call was made in an anchor state, may be followed by whatever `R` allows, and
then brings its program to an end that its own caller expects. -/
inductive FramesOk : List (κ × (σ → Res σ κ Unit)) → Trace σ κ → Prop where
  | nil {x : Trace σ κ} : FramesOk [] x
  | cons {c : κ} {k : σ → Res σ κ Unit} {rest : List (κ × (σ → Res σ κ Unit))} {a b x : Trace σ κ}
      (since : R a x)
      (resumes : ∀ y, R a y →
        Meets R (fun d => V (d :: rest.map Prod.fst)) (fun _ => Ends R V (rest.map Prod.fst) b)
          (k y.1) y.2)
      (valid : V (rest.map Prod.fst) b) (below : FramesOk rest b) :
      FramesOk ((c, k) :: rest) x

structure Sound (c : Config σ κ) : Prop where
  valid : V c.pending (c.state, c.calls)
  frames : FramesOk R V c.frames (c.state, c.calls)

variable {R V}

/-- A program that runs to its end, or to its next call, over sound frames. -/
theorem Sound.settle (hrefl : ∀ x, R x x) (htrans : ∀ x y z, R x y → R y z → R x z)
    (hstable : ∀ st x y, V st x → R x y → V st y) {fs : List (κ × (σ → Res σ κ Unit))}
    {b : Trace σ κ} (hvalid : V (fs.map Prod.fst) b) (hfs : FramesOk R V fs b)
    {r : Res σ κ Unit} {calls : List κ}
    (hr : Meets R (fun d => V (d :: fs.map Prod.fst)) (fun _ => Ends R V (fs.map Prod.fst) b) r
      calls) :
    Sound R V (Config.settle fs calls r) := by
  cases r with
  | call c s k => exact ⟨hr.1, .cons (hrefl _) hr.2 hvalid hfs⟩
  | done a s =>
    cases hfs with
    | nil => exact ⟨hr, .nil⟩
    | cons since resumes valid below =>
      exact ⟨hstable _ _ _ hvalid hr, .cons (htrans _ _ _ since hr) resumes valid below⟩

/-- An operation that keeps the rely is fit for both uses. -/
theorem Keeps.ends {I : Trace σ κ → Prop} {stack : List κ} {x : Trace σ κ} {p : Prog σ κ Unit}
    (hp : Keeps R R (fun d => V (d :: stack)) I x p) (hI : I x) (hV : V stack x)
    (hstable : ∀ st x y, V st x → R x y → V st y) :
    Meets R (fun d => V (d :: stack)) (fun _ => Ends R V stack x) (p x.1) x.2 := by
  refine (hp hI).mono fun _ y hy => ?_
  cases stack with
  | nil => exact hstable _ x y hV hy
  | cons _ _ => exact hy

theorem Sound.start {s : σ} (hV : V [] (s, [])) : Sound R V (Config.start s : Config σ κ) := ⟨hV, .nil⟩

/-- **The rely rule.** If every operation that is used keeps to `R` within a call and restores `V`
at top level, whatever `R` lets happen during its own calls, then `V` holds throughout. -/
theorem Sound.run {op : ω → Prog σ κ Unit} {enabled : List κ → ω → Bool}
    {ok : Config σ κ → Move ω → Prop} (hrefl : ∀ x, R x x)
    (htrans : ∀ x y z, R x y → R y z → R x z) (hstable : ∀ st x y, V st x → R x y → V st y)
    (hop : ∀ (c : Config σ κ) (o : ω), ok c (.invoke o) → enabled c.pending o = true →
      V c.pending (c.state, c.calls) →
      Meets R (fun d => V (d :: c.pending)) (fun _ => Ends R V c.pending (c.state, c.calls))
        (op o c.state) c.calls)
    {c₀ c : Config σ κ} (h₀ : Sound R V c₀) {ms : List (Move ω)}
    (hok : Runs.EveryStep (Config.step op enabled) ok c₀ ms)
    (hr : Runs.run (Config.step op enabled) c₀ ms = some c) :
    Sound R V c := by
  refine Runs.run_invariant (Sound R V) ?_ h₀ hok hr
  intro c m c' hc hm hs
  cases m with
  | invoke o =>
    simp only [Config.step] at hs
    by_cases hen : enabled c.pending o = true
    · rw [if_pos hen, Option.some.injEq] at hs
      exact hs ▸ Sound.settle hrefl htrans hstable hc.valid hc.frames (hop c o hm hen hc.valid)
    · rw [if_neg hen] at hs
      exact absurd hs (Option.some_ne_none c').symm
  | ret =>
    obtain ⟨s, fs, calls⟩ := c
    cases fs with
    | nil => exact absurd hs (Option.some_ne_none c').symm
    | cons f rest =>
      obtain ⟨d, k⟩ := f
      simp only [Config.step, Option.some.injEq] at hs
      obtain ⟨⟩ | ⟨since, resumes, valid, below⟩ := hc.frames
      exact hs ▸ Sound.settle hrefl htrans hstable valid below (resumes _ since)

end
end IpfsLite.Reentrant
