import IpfsLite.Graphsync.RegisteredRequests

/-! # Request ids of several instances

`LocalRequests` of one node draw their ids from one counter. An id that is drawn is looked up in the
instance's own requests only, and the search for another one, which begins when the counter has passed
`INT_MAX`, looks nowhere else either. -/
namespace IpfsLite.Graphsync
set_option autoImplicit false

open Reentrant RequestTable

namespace LocalRequests

/-! ## The search for an id -/

theorem bmod_low {width half k : ℕ} (hwidth : width = 2 * half) (hk : k < half) :
    Int.bmod k width = k := by
  rw [Int.bmod_eq_iff (by omega)]
  exact ⟨by omega, by omega, by simp⟩

theorem bmod_high {width half k : ℕ} (hwidth : width = 2 * half) (hpos : 0 < half) (hlow : half ≤ k)
    (hk : k ≤ width) : Int.bmod k width = k - width := by
  rw [Int.bmod_eq_iff (by omega)]
  exact ⟨by omega, by omega, ⟨-1, by ring⟩⟩

/-- The positive ids come first, -/
theorem searchOrder_low {k : ℕ} (hk : k + 1 < 2 ^ 31) : searchOrder k = ((k + 1 : ℕ) : ℤ) :=
  bmod_low (by norm_num) hk

/-- then the negative ones, then 0. -/
theorem searchOrder_high {k : ℕ} (hlow : 2 ^ 31 ≤ k + 1) (hk : k + 1 ≤ 2 ^ 32) :
    searchOrder k = ((k + 1 : ℕ) : ℤ) - ((2 ^ 32 : ℕ) : ℤ) :=
  bmod_high (by norm_num) (Nat.two_pow_pos 31) hlow hk

theorem searchOrder_inj {j k : ℕ} (hj : j + 1 ≤ 2 ^ 32) (hk : k + 1 ≤ 2 ^ 32)
    (h : searchOrder j = searchOrder k) : j = k := by
  rcases Nat.lt_or_ge (j + 1) (2 ^ 31) with hj' | hj' <;> rcases Nat.lt_or_ge (k + 1) (2 ^ 31) with hk' | hk'
  · rw [searchOrder_low hj', searchOrder_low hk'] at h
    have heq : ((j + 1 : ℕ) : ℤ) = ((k + 1 : ℕ) : ℤ) := h
    omega
  · rw [searchOrder_low hj', searchOrder_high hk' hk] at h
    have heq : ((j + 1 : ℕ) : ℤ) = ((k + 1 : ℕ) : ℤ) - ((2 ^ 32 : ℕ) : ℤ) := h
    omega
  · rw [searchOrder_high hj' hj, searchOrder_low hk'] at h
    have heq : ((j + 1 : ℕ) : ℤ) - ((2 ^ 32 : ℕ) : ℤ) = ((k + 1 : ℕ) : ℤ) := h
    omega
  · rw [searchOrder_high hj' hj, searchOrder_high hk' hk] at h
    have heq : ((j + 1 : ℕ) : ℤ) - ((2 ^ 32 : ℕ) : ℤ) = ((k + 1 : ℕ) : ℤ) - ((2 ^ 32 : ℕ) : ℤ) := h
    omega

theorem searchOrder_last {k : ℕ} (hk : k + 1 = 2 ^ 32) : searchOrder k = 0 := by
  rw [searchOrder_high (by omega) hk.le, hk]
  exact sub_self _

/-- The search may stop at the id. -/
def stopsAt (l : LocalRequests) (k : ℕ) : Prop :=
  searchOrder k = 0 ∨ l.activeRequests.contains (searchOrder k) = false

/-- Among so many ids there is one that is not active. -/
theorem stopsAt_exists (l : LocalRequests) :
    ∃ k < l.activeRequests.entries.length + 1, k + 1 ≤ 2 ^ 32 ∧ l.stopsAt k := by
  by_contra hnone
  have hused : ∀ k < l.activeRequests.entries.length + 1, k + 1 ≤ 2 ^ 32 → ¬l.stopsAt k :=
    fun k hk hsmall hstop => hnone ⟨k, hk, hsmall, hstop⟩
  have hfew : l.activeRequests.entries.length + 1 < 2 ^ 32 := by
    by_contra hmany
    exact hused (2 ^ 32 - 1) (by omega) (by omega) (.inl (searchOrder_last (by omega)))
  have hnodup : ((List.range (l.activeRequests.entries.length + 1)).map searchOrder).Nodup := by
    refine List.Nodup.map_on (fun j hj k hk h => ?_) List.nodup_range
    rw [List.mem_range] at hj hk
    exact searchOrder_inj (by omega) (by omega) h
  have hsubset : (List.range (l.activeRequests.entries.length + 1)).map searchOrder ⊆ l.activeRequests.keys := by
    intro id hid
    obtain ⟨k, hk, rfl⟩ := List.mem_map.mp hid
    rw [List.mem_range] at hk
    rw [OrdMap.mem_keys_iff_contains]
    by_contra hactive
    exact hused k hk (by omega) (.inr (Bool.eq_false_of_not_eq_true hactive))
  have hlength := (hnodup.subperm hsubset).length_le
  rw [List.length_map, List.length_range, OrdMap.keys, List.length_map] at hlength
  omega

/-- The id that is found is the first at which the search may stop. -/
theorem firstUnused_spec (l : LocalRequests) :
    ∃ k, k + 1 ≤ 2 ^ 32 ∧ l.firstUnused = searchOrder k ∧ l.stopsAt k ∧ ∀ j < k, ¬l.stopsAt j := by
  have hdec (k : ℕ) : ((fun id => decide (id = 0) || !l.activeRequests.contains id) ∘ searchOrder) k = true ↔
      l.stopsAt k := by
    rw [Function.comp_apply, Bool.or_eq_true, decide_eq_true_iff, Bool.not_eq_true', stopsAt]
  obtain ⟨i, hi, hsmall, hstop⟩ := l.stopsAt_exists
  unfold firstUnused
  rw [List.find?_map]
  cases hfind : (List.range (l.activeRequests.entries.length + 1)).find?
      ((fun id => decide (id = 0) || !l.activeRequests.contains id) ∘ searchOrder) with
  | none =>
    have hi' := List.find?_eq_none.mp hfind i (List.mem_range.mpr hi)
    rw [hdec] at hi'
    exact absurd hstop hi'
  | some k =>
    obtain ⟨hk, -, hfirst⟩ := List.find?_range_eq_some.mp hfind
    rw [hdec] at hk
    have hbefore : ∀ j < k, ¬l.stopsAt j := by
      intro j hj hstops
      have hnot := hfirst j hj
      rw [(hdec j).mpr hstops] at hnot
      exact Bool.false_ne_true hnot
    have hle : k ≤ i := Nat.le_of_not_lt fun hlt => hbefore i hlt hstop
    exact ⟨k, by omega, by rw [Option.map_some, Option.getD_some], hk, hbefore⟩

/-- Every id of an `int32_t` but 0 is active. -/
def Exhausted (l : LocalRequests) : Prop :=
  ∀ id : ℤ, id ≠ 0 → -2 ^ 31 ≤ id → id < 2 ^ 31 → l.activeRequests.contains id = true

/-- What the search finds. -/
theorem firstUnused_cases (l : LocalRequests) :
    (0 < l.firstUnused ∧ l.firstUnused < 2 ^ 31 ∧ l.activeRequests.contains l.firstUnused = false ∧
      ∀ id : ℤ, 0 < id → id < l.firstUnused → l.activeRequests.contains id = true) ∨
    ((∀ id : ℤ, 0 < id → id < 2 ^ 31 → l.activeRequests.contains id = true) ∧
      (l.firstUnused < 0 ∧ ¬l.Exhausted ∨ l.firstUnused = 0 ∧ l.Exhausted)) := by
  obtain ⟨k, hk, hfound, hstop, hbefore⟩ := l.firstUnused_spec
  have hused (j : ℕ) (hj : j < k) : l.activeRequests.contains (searchOrder j) = true := by
    by_contra hunused
    exact hbefore j hj (.inr (Bool.eq_false_of_not_eq_true hunused))
  -- a positive id is reached at its own number
  have hpositive (id : ℤ) (hid : 0 < id) (hsmall : id < 2 ^ 31) (hreached : id ≤ k) :
      l.activeRequests.contains id = true := by
    obtain ⟨j, rfl⟩ : ∃ j : ℕ, id = ((j + 1 : ℕ) : ℤ) := ⟨id.toNat - 1, by omega⟩
    rw [← searchOrder_low (by omega)]
    exact hused j (by omega)
  rw [hfound]
  rcases Nat.lt_or_ge (k + 1) (2 ^ 31) with hlow | hhigh
  · rw [stopsAt, searchOrder_low hlow] at hstop
    have hunused : l.activeRequests.contains ((k + 1 : ℕ) : ℤ) = false :=
      hstop.resolve_left (Nat.cast_ne_zero.mpr (Nat.succ_ne_zero k))
    rw [searchOrder_low hlow]
    have hpos : (0 : ℤ) < ((k + 1 : ℕ) : ℤ) := by omega
    have hint : ((k + 1 : ℕ) : ℤ) < 2 ^ 31 := by omega
    exact .inl ⟨hpos, hint, hunused, fun id hid hlt => hpositive id hid (hlt.trans hint) (by omega)⟩
  · refine .inr ⟨fun id hid hsmall => hpositive id hid hsmall (by omega), ?_⟩
    rcases Nat.lt_or_eq_of_le hk with hlt | hlast
    · have hnegative : ((k + 1 : ℕ) : ℤ) - ((2 ^ 32 : ℕ) : ℤ) < 0 := by omega
      rw [stopsAt, searchOrder_high hhigh hk] at hstop
      have hunused := hstop.resolve_left hnegative.ne
      rw [searchOrder_high hhigh hk]
      refine .inl ⟨hnegative, fun hexhausted => ?_⟩
      have hactive := hexhausted _ hnegative.ne (by omega) (by omega)
      exact Bool.false_ne_true (hunused.symm.trans hactive)
    · refine .inr ⟨searchOrder_last hlast, fun id hid hmin hmax => ?_⟩
      rcases lt_or_gt_of_ne hid with hneg | hpos
      · obtain ⟨j, hj, rfl⟩ : ∃ j : ℕ, 2 ^ 31 ≤ j + 1 ∧ id = ((j + 1 : ℕ) : ℤ) - ((2 ^ 32 : ℕ) : ℤ) :=
          ⟨(id + 2 ^ 32).toNat - 1, by omega, by omega⟩
        rw [← searchOrder_high hj (by omega)]
        exact hused j (by omega)
      · exact hpositive id hpos hmax (by omega)

end LocalRequests

/-! ## Instances with one generator -/

structure Drawing (ι : Type) where
  generator : IdGenerator
  locals : ι → Config RequestTable RequestTable.Call

namespace Drawing
variable {ι : Type}

def start : Drawing ι := ⟨.initial, fun _ => .start RequestTable.initial⟩

/-- The generator is the shared one, whatever the move says. -/
def withGenerator (g : IdGenerator) : Move Op → Move Op
  | .invoke (.newRequest _ rootCid selector extensions) => .invoke (.newRequest g rootCid selector extensions)
  | m => m

/-- The requests of an instance. -/
def requests (s : Drawing ι) (i : ι) : LocalRequests := (s.locals i).state.requests

/-- What `nextRequestId` returns to the instance. -/
def returned (s : Drawing ι) (i : ι) : RequestId := ((s.requests i).nextRequestId s.generator).1

def nextGenerator (s : Drawing ι) (i : ι) : Move Op → IdGenerator
  | .invoke (.newRequest _ _ _ _) => ((s.requests i).nextRequestId s.generator).2
  | _ => s.generator

def step [DecidableEq ι] (s : Drawing ι) (m : ι × Move Op) : Option (Drawing ι) :=
  (RequestTable.step (s.locals m.1) (withGenerator s.generator m.2)).map fun c =>
    ⟨s.nextGenerator m.1 m.2, Function.update s.locals m.1 c⟩

def active (s : Drawing ι) (i : ι) (id : RequestId) : Prop := (s.requests i).activeRequests.contains id = true

/-- The id is 0, or positive and active in no instance. -/
def Unique (s : Drawing ι) : ι × Move Op → Prop
  | (i, .invoke (.newRequest _ _ _ _)) => s.returned i = 0 ∨ 0 < s.returned i ∧ ∀ j, ¬s.active j (s.returned i)
  | _ => True

/-- The number that is drawn will do: it is positive and new to the instance. -/
def Drawn (s : Drawing ι) (i : ι) : Prop := 0 < s.generator.next.1 ∧ ¬s.active i s.generator.next.1

/-- A number that will do for the instance is active nowhere else. Where there is none, and it searches
from 1 on, it is either out of ids, or it has a positive one left, and whatever positive id another
instance has active it has active too, or has a smaller one left. -/
def Available (s : Drawing ι) : ι × Move Op → Prop
  | (i, .invoke (.newRequest _ _ _ _)) =>
    (s.Drawn i → ∀ j, ¬s.active j s.generator.next.1) ∧
    (¬s.Drawn i → (s.requests i).Exhausted ∨
      (∃ k : ℤ, 0 < k ∧ k < 2 ^ 31 ∧ ¬s.active i k) ∧
        ∀ j (id : ℤ), 0 < id → s.active j id → s.active i id ∨ ∃ k : ℤ, 0 < k ∧ k < id ∧ ¬s.active i k)
  | _ => True

theorem returned_drawn {s : Drawing ι} {i : ι} (h : s.Drawn i) : s.returned i = s.generator.next.1 := by
  have hnew : (s.requests i).activeRequests.contains s.generator.next.1 = false :=
    Bool.eq_false_of_not_eq_true h.2
  rw [returned, LocalRequests.nextRequestId, if_pos ⟨h.1, hnew⟩]

theorem returned_searched {s : Drawing ι} {i : ι} (h : ¬s.Drawn i) :
    s.returned i = (s.requests i).firstUnused := by
  rw [returned, LocalRequests.nextRequestId, if_neg]
  rintro ⟨hpos, hnew⟩
  exact h ⟨hpos, Bool.eq_false_iff.mp hnew⟩

theorem unique_iff_available (s : Drawing ι) (m : ι × Move Op) : s.Unique m ↔ s.Available m := by
  obtain ⟨i, m⟩ := m
  cases m with
  | ret => exact Iff.rfl
  | invoke o =>
    cases o with
    | newRequest g rootCid selector extensions =>
      by_cases hdrawn : s.Drawn i
      · show (s.returned i = 0 ∨ 0 < s.returned i ∧ ∀ j, ¬s.active j (s.returned i)) ↔ _
        rw [returned_drawn hdrawn]
        constructor
        · intro h
          exact ⟨fun _ => (h.resolve_left hdrawn.1.ne').2, fun hnot => absurd hdrawn hnot⟩
        · intro h
          exact .inr ⟨hdrawn.1, h.1 hdrawn⟩
      · show (s.returned i = 0 ∨ 0 < s.returned i ∧ ∀ j, ¬s.active j (s.returned i)) ↔ _
        rw [returned_searched hdrawn]
        have hsearch : s.Available (i, .invoke (.newRequest g rootCid selector extensions)) ↔ _ :=
          (and_iff_right fun h => absurd h hdrawn).trans (forall_prop_of_true hdrawn)
        rw [hsearch]
        rcases (s.requests i).firstUnused_cases with ⟨hpos, hmax, hunused, hsmaller⟩ | ⟨hall, hrest⟩
        · have hnotExhausted : ¬(s.requests i).Exhausted := fun h =>
            Bool.false_ne_true (hunused.symm.trans (h _ hpos.ne' (le_trans (by norm_num) hpos.le) hmax))
          have hunused' : ¬s.active i (s.requests i).firstUnused := Bool.eq_false_iff.mp hunused
          constructor
          · intro h
            refine .inr ⟨⟨_, hpos, hmax, hunused'⟩, fun j id hid hj => ?_⟩
            by_cases hown : s.active i id
            · exact .inl hown
            · have hne : (s.requests i).firstUnused ≠ id := fun heq => (h.resolve_left hpos.ne').2 j (heq ▸ hj)
              have hge : (s.requests i).firstUnused ≤ id := le_of_not_gt fun hlt => hown (hsmaller id hid hlt)
              exact .inr ⟨_, hpos, lt_of_le_of_ne hge hne, hunused'⟩
          · rintro h
            refine .inr ⟨hpos, fun j hj => ?_⟩
            rcases (h.resolve_left hnotExhausted).2 j _ hpos hj with hown | ⟨k, hk, hlt, hnot⟩
            · exact hunused' hown
            · exact hnot (hsmaller k hk hlt)
        · have hnone : ¬∃ k : ℤ, 0 < k ∧ k < 2 ^ 31 ∧ ¬s.active i k := by
            rintro ⟨k, hk, hlt, hnot⟩
            exact hnot (hall k hk hlt)
          rcases hrest with ⟨hneg, hnot⟩ | ⟨hzero, hexhausted⟩
          · refine iff_of_false ?_ ?_
            · rintro (hzero | ⟨hpos, -⟩)
              · exact hneg.ne hzero
              · exact lt_asymm hneg hpos
            · rintro (hexhausted | ⟨hsome, -⟩)
              · exact hnot hexhausted
              · exact hnone hsome
          · exact iff_of_true (.inl hzero) (.inl hexhausted)
    | _ => exact Iff.rfl

/-! ## Runs -/

section
variable [DecidableEq ι]

theorem step_eq {s s' : Drawing ι} {m : ι × Move Op} (hs : step s m = some s') :
    ∃ c, RequestTable.step (s.locals m.1) (withGenerator s.generator m.2) = some c ∧
      s' = ⟨s.nextGenerator m.1 m.2, Function.update s.locals m.1 c⟩ := by
  obtain ⟨c, hc, rfl⟩ := Option.map_eq_some_iff.mp hs
  exact ⟨c, hc, rfl⟩

/-- Between callbacks the operations of all instances are atomic. -/
def Settled (s : Drawing ι) : Prop := ∀ i, (s.locals i).Settled registered

omit [DecidableEq ι] in
theorem settled_start : Settled (start : Drawing ι) := fun _ => Config.settled_start RequestTable.initial

theorem step_settled {s s' : Drawing ι} {m : ι × Move Op} (h : s.Settled) (hs : step s m = some s') :
    s'.Settled := by
  obtain ⟨c, hc, rfl⟩ := step_eq hs
  intro j
  by_cases hj : j = m.1
  · subst hj
    show (Function.update s.locals m.1 c m.1).Settled registered
    rw [Function.update_self]
    exact (step_registered (h m.1) hc).1
  · show (Function.update s.locals m.1 c j).Settled registered
    rw [Function.update_of_ne hj]
    exact h j

theorem active_self {s : Drawing ι} {g : IdGenerator} {i : ι} {c : Config RequestTable RequestTable.Call}
    {id : RequestId} : active ⟨g, Function.update s.locals i c⟩ i id ↔
      (registered c.state).active.contains id = true := by
  unfold active requests
  rw [show (Drawing.mk g (Function.update s.locals i c)).locals i = c from Function.update_self _ _ _]
  rfl

theorem active_of_ne {s : Drawing ι} {g : IdGenerator} {i j : ι} {c : Config RequestTable RequestTable.Call}
    (hj : j ≠ i) {id : RequestId} : active ⟨g, Function.update s.locals i c⟩ j id ↔ s.active j id := by
  unfold active requests
  rw [show (Drawing.mk g (Function.update s.locals i c)).locals j = s.locals j from Function.update_of_ne hj _ _]

/-- The requests that a move makes active. -/
theorem step_active {s s' : Drawing ι} {m : ι × Move Op} (h : s.Settled) (hs : step s m = some s') {j : ι}
    {id : RequestId} (hj : s'.active j id) :
    s.active j id ∨ ∃ g rootCid selector extensions, m = (j, .invoke (.newRequest g rootCid selector extensions)) ∧
      id = s.returned j ∧ s.returned j ≠ 0 := by
  obtain ⟨c, hc, rfl⟩ := step_eq hs
  obtain ⟨i, m⟩ := m
  by_cases hji : j = i
  · subst hji
    have hview := (step_registered (h j) hc).2
    rw [active_self, hview] at hj
    cases m with
    | ret => exact .inl hj
    | invoke o =>
      cases o with
      | newRequest g rootCid selector extensions =>
        have hmade : ((s.locals j).state.register
            (.newRequest s.generator rootCid selector extensions)).active.contains id = true := hj
        rcases register_newRequest (s.locals j).state s.generator rootCid selector extensions with
          ⟨made, -, heq⟩ | ⟨-, hne, heq⟩
        · rw [heq] at hmade
          exact .inl hmade
        · rw [heq, OrdMap.contains_insert, Bool.or_eq_true, decide_eq_true_iff] at hmade
          rcases hmade with hnew | hold
          · exact .inr ⟨g, rootCid, selector, extensions, rfl, hnew, hne⟩
          · exact .inl hold
      | _ =>
        simp only [withGenerator, Config.viewAfter] at hj
        refine .inl ((register_shrinks (s.locals j).state ?_).1 id hj)
        exact fun _ _ _ _ => nofun
  · exact .inl ((active_of_ne hji).mp hj)

/-- No id is active in two instances. -/
def Apart (s : Drawing ι) : Prop := ∀ i j id, s.active i id → s.active j id → i = j

theorem step_apart {s s' : Drawing ι} {m : ι × Move Op} (h : s.Settled) (hapart : s.Apart) (hm : s.Available m)
    (hs : step s m = some s') : s'.Apart := by
  have hunique := (s.unique_iff_available m).mpr hm
  intro i j id hi hj
  rcases step_active h hs hi with hi | ⟨g, rootCid, selector, extensions, rfl, rfl, hne⟩
  · rcases step_active h hs hj with hj | ⟨g, rootCid, selector, extensions, rfl, rfl, hne⟩
    · exact hapart i j id hi hj
    · exact absurd hi ((hunique.resolve_left hne).2 i)
  · rcases step_active h hs hj with hj | ⟨_, _, _, _, hm, -⟩
    · exact absurd hj ((hunique.resolve_left hne).2 j)
    · exact congrArg Prod.fst hm

/-- **Request ids stay unique** exactly in the runs in which every request finds an id available; and then
no response is claimed by two instances. -/
theorem ids_unique_iff (ms : List (ι × Move Op)) :
    (Runs.EveryStep step Unique (start : Drawing ι) ms ↔ Runs.EveryStep step Available (start : Drawing ι) ms) ∧
      (Runs.EveryStep step Available (start : Drawing ι) ms → Runs.EveryState step Apart (start : Drawing ι) ms) := by
  have hsame : (Unique : Drawing ι → ι × Move Op → Prop) = Available :=
    funext fun s => funext fun m => propext (s.unique_iff_available m)
  refine ⟨by rw [hsame], fun h => ?_⟩
  refine Runs.everyState_of_invariant (fun s => s.Settled ∧ s.Apart) ?_ (fun s hs => hs.2)
    ⟨settled_start, fun i j id hi => absurd hi Bool.false_ne_true⟩ h
  rintro s m s' ⟨hsettled, hapart⟩ hm hs
  exact ⟨step_settled hsettled hs, step_apart hsettled hapart hm hs⟩

/-! ## Before the counter wraps around -/

/-- The ids in use have been drawn. -/
structure Low (s : Drawing ι) : Prop where
  settled : s.Settled
  nonneg : 0 ≤ s.generator.counter
  drawn : ∀ j id, s.active j id → id ≤ s.generator.counter

/-- There is a positive number to draw. -/
def Unwrapped (s : Drawing ι) (_ : ι × Move Op) : Prop := s.generator.counter + 1 < 2 ^ 31

omit [DecidableEq ι] in
theorem next_of_lt {g : IdGenerator} (h : g.counter + 1 < 2 ^ 31) :
    g.next = (g.counter + 1, { g with counter := g.counter + 1 }) := by
  rw [RequestIdGenerator.next, if_pos h]

theorem nextRequestId_generator (l : LocalRequests) (g : IdGenerator) : (l.nextRequestId g).2 = g.next.2 := by
  unfold LocalRequests.nextRequestId
  simp only
  split <;> rfl

omit [DecidableEq ι] in
theorem Low.is_drawn {s : Drawing ι} (h : s.Low) (hlt : s.generator.counter + 1 < 2 ^ 31) (i : ι) :
    s.Drawn i ∧ s.generator.next.1 = s.generator.counter + 1 ∧ ∀ j, ¬s.active j s.generator.next.1 := by
  have hnext := congrArg Prod.fst (next_of_lt hlt)
  have hnonneg := h.nonneg
  have hfree (j : ι) : ¬s.active j s.generator.next.1 := fun hj => by
    have hle := h.drawn j _ hj
    rw [hnext] at hle
    exact absurd hle (Int.not_le.mpr (Int.lt_succ _))
  have hpos : 0 < s.generator.next.1 := hnext ▸ Int.lt_add_one_of_le hnonneg
  exact ⟨⟨hpos, hfree i⟩, hnext, hfree⟩

omit [DecidableEq ι] in
theorem Low.available {s : Drawing ι} (h : s.Low) (m : ι × Move Op) (hlt : s.Unwrapped m) : s.Available m := by
  obtain ⟨i, m⟩ := m
  cases m with
  | ret => trivial
  | invoke o =>
    cases o with
    | newRequest g rootCid selector extensions =>
      obtain ⟨hdrawn, -, hfree⟩ := h.is_drawn hlt i
      exact ⟨fun _ => hfree, fun hnot => absurd hdrawn hnot⟩
    | _ => trivial

theorem Low.step {s s' : Drawing ι} {m : ι × Move Op} (h : s.Low) (hlt : s.Unwrapped m)
    (hs : step s m = some s') : s'.Low := by
  have hle : s.generator.counter ≤ s'.generator.counter ∧
      (∀ i g rootCid selector extensions, m = (i, .invoke (.newRequest g rootCid selector extensions)) →
        s'.generator.counter = s.generator.counter + 1) := by
    obtain ⟨c, -, rfl⟩ := step_eq hs
    obtain ⟨i, m⟩ := m
    cases m with
    | ret => exact ⟨le_rfl, fun _ _ _ _ _ => nofun⟩
    | invoke o =>
      cases o with
      | newRequest g rootCid selector extensions =>
        have hcounter : (s.nextGenerator i (.invoke (.newRequest g rootCid selector extensions))).counter =
            s.generator.counter + 1 := by
          rw [nextGenerator, nextRequestId_generator, next_of_lt hlt]
        exact ⟨hcounter ▸ Int.le_add_one le_rfl, fun _ _ _ _ _ _ => hcounter⟩
      | _ => exact ⟨le_rfl, fun _ _ _ _ _ => nofun⟩
  refine ⟨step_settled h.settled hs, h.nonneg.trans hle.1, fun j id hj => ?_⟩
  rcases step_active h.settled hs hj with hold | ⟨g, rootCid, selector, extensions, rfl, rfl, -⟩
  · exact (h.drawn j id hold).trans hle.1
  · obtain ⟨hdrawn, hnext, -⟩ := h.is_drawn hlt j
    rw [returned_drawn hdrawn, hnext, hle.2 _ _ _ _ _ rfl]

/-- Up to there every run has ids available. -/
theorem available_unwrapped {ms : List (ι × Move Op)}
    (h : Runs.EveryStep step Unwrapped (start : Drawing ι) ms) :
    Runs.EveryStep step Available (start : Drawing ι) ms :=
  Runs.everyStep_of_invariant Low (fun _ _ _ hs hm hstep => hs.step hm hstep) (fun _ m hs hm => hs.available m hm)
    ⟨settled_start, le_rfl, fun _ _ hj => absurd hj Bool.false_ne_true⟩ h

end

instance (s : Drawing ι) (m : ι × Move Op) : Decidable (s.Unwrapped m) := inferInstanceAs (Decidable (_ < _))

/-- A request of each of two instances. -/
def twoRequests : List (Bool × Move Op) :=
  [(true, .invoke (.newRequest .initial someRoot [] [])), (false, .invoke (.newRequest .initial someRoot [] []))]

theorem two_requests_apart : Runs.EveryStep step Unique (start : Drawing Bool) twoRequests ∧
    Runs.EveryState step Apart (start : Drawing Bool) twoRequests := by
  have hfree : Runs.EveryStep step Available (start : Drawing Bool) twoRequests :=
    available_unwrapped (by decide +kernel)
  exact ⟨(ids_unique_iff twoRequests).1.mpr hfree, (ids_unique_iff twoRequests).2 hfree⟩

/-! ## After it has wrapped around -/

/-- `true` is idle and has no active request, `false` has the first. -/
structure Idle (s : Drawing Bool) (n : ℕ) : Prop where
  idle : (s.locals true).frames = []
  empty : (s.requests true).activeRequests = .empty
  first : s.active false 1
  counter : s.generator.counter = n

/-- An answer that is taken in without further ado. -/
theorem answer_taken {s : RequestTable} {id : RequestId} (h : s.requests.activeRequests.contains id = true)
    (calls : List RequestTable.Call) :
    ∃ c c', RequestTable.step ⟨s, [], calls⟩ (.invoke (.onResponse id .fullContent [])) = some c ∧
      RequestTable.step c .ret = some c' ∧ c'.frames = [] ∧
      c'.state.requests.activeRequests = s.requests.activeRequests.erase id := by
  have hanswered : s.requests.onResponse id .fullContent =
      ({ s.requests with activeRequests := s.requests.activeRequests.erase id }, true) := by
    rw [LocalRequests.onResponse, h, if_neg (by decide), if_pos (by decide)]
  have hop : onResponse id .fullContent [] s = tell (s.activeCallback id) .fullContent []
      (s.setRequests { s.requests with activeRequests := s.requests.activeRequests.erase id }) := by
    show Prog.when ((s.requests.onResponse id .fullContent).2 = true) _ _ = _
    rw [hanswered]
    rfl
  refine ⟨_, _, congrArg (fun r => some (Config.settle [] calls r)) hop, rfl, rfl, rfl⟩

/-- A request of `true` that is answered at once, if it is sent. -/
theorem Idle.draw {s : Drawing Bool} {n : ℕ} (h : s.Idle n) (hlt : ((n + 1 : ℕ) : ℤ) < 2 ^ 31) :
    ∃ ms t, Runs.run step s ms = some t ∧ t.Idle (n + 1) := by
  have hcounter : ((s.requests true).nextRequestId s.generator).2.counter = ((n + 1 : ℕ) : ℤ) := by
    have hlt' : s.generator.counter + 1 < 2 ^ 31 := by
      rw [h.counter]
      exact_mod_cast hlt
    rw [nextRequestId_generator, next_of_lt hlt', h.counter]
    push_cast
    rfl
  let table : RequestTable := addRequest s.generator someRoot [] [] (s.locals true).state
  let asked : Drawing Bool := ⟨((s.requests true).nextRequestId s.generator).2,
    Function.update s.locals true ⟨table, [], (s.locals true).calls⟩⟩
  have hask : step s (true, .invoke (.newRequest .initial someRoot [] [])) = some asked := by
    show some _ = some asked
    rw [h.idle]
    rfl
  have hfirst : asked.active false 1 := (active_of_ne (by decide)).mpr h.first
  rcases register_newRequest (s.locals true).state s.generator someRoot [] [] with
    ⟨made, -, heq⟩ | ⟨-, -, heq⟩
  · have hempty : table.requests.activeRequests = .empty := (congrArg Registered.active heq).trans h.empty
    exact ⟨[_], asked, Runs.run_step hask [], rfl, hempty, hfirst, hcounter⟩
  · have hactive : table.requests.activeRequests = OrdMap.insert .empty _ () :=
      (congrArg Registered.active heq).trans (congrArg (fun m => OrdMap.insert m _ ()) h.empty)
    have hcontains : table.requests.activeRequests.contains ((s.requests true).nextRequestId s.generator).1 =
        true := by
      rw [hactive, OrdMap.contains_insert]
      exact Bool.or_eq_true_iff.mpr (.inl (decide_eq_true rfl))
    obtain ⟨c, c', hanswer, hret, hidle, hended⟩ := answer_taken hcontains (s.locals true).calls
    let answered : Drawing Bool := ⟨asked.generator, Function.update asked.locals true c⟩
    let done : Drawing Bool := ⟨asked.generator, Function.update answered.locals true c'⟩
    have hstep : step asked (true, .invoke (.onResponse _ .fullContent [])) = some answered :=
      congrArg (Option.map _) hanswer
    have hback : step answered (true, .ret) = some done := congrArg (Option.map _) hret
    have hrun : Runs.run step s [(true, .invoke (.newRequest .initial someRoot [] [])),
        (true, .invoke (.onResponse ((s.requests true).nextRequestId s.generator).1 .fullContent [])),
        (true, .ret)] = some done := by
      rw [Runs.run_step hask, Runs.run_step hstep, Runs.run_step hback]
      rfl
    refine ⟨_, done, hrun, hidle, ?_, ?_, hcounter⟩
    · show c'.state.requests.activeRequests = .empty
      rw [hended, hactive, OrdMap.eq_empty_iff]
      intro id
      rw [OrdMap.contains_erase, OrdMap.contains_insert]
      by_cases hid : id = ((s.locals true).state.requests.nextRequestId s.generator).1
      · simp [hid, requests]
      · simp [hid]
    · exact (active_of_ne (by decide)).mpr ((active_of_ne (by decide)).mpr hfirst)

/-- Requests enough to get the counter anywhere. -/
theorem Idle.draws {s : Drawing Bool} {n : ℕ} (h : s.Idle n) (k : ℕ) (hlt : ((n + k : ℕ) : ℤ) < 2 ^ 31) :
    ∃ ms t, Runs.run step s ms = some t ∧ t.Idle (n + k) := by
  induction k with
  | zero => exact ⟨[], s, rfl, h⟩
  | succ k ih =>
    obtain ⟨ms, t, hrun, ht⟩ := ih (by omega)
    obtain ⟨ms', u, hrun', hu⟩ := ht.draw hlt
    exact ⟨ms ++ ms', u, by rw [Runs.run_append, hrun]; exact hrun', hu⟩

/-- Now the search begins, and ends with what `false` has active. -/
theorem Idle.returned_first {s : Drawing Bool} {n : ℕ} (h : s.Idle n) (hlast : n + 1 = 2 ^ 31) :
    s.returned true = 1 := by
  have hnext : s.generator.next.1 = -2 ^ 31 := by
    have hcounter := h.counter
    rw [RequestIdGenerator.next, if_neg]
    rw [hcounter]
    omega
  have hsearch : ¬s.Drawn true := fun hdrawn => absurd (hnext ▸ hdrawn.1) (by norm_num)
  have hunused (id : RequestId) : (s.requests true).activeRequests.contains id = false := by
    rw [h.empty]
    rfl
  rw [returned_searched hsearch]
  rcases (s.requests true).firstUnused_cases with ⟨hpos, -, -, hsmaller⟩ | ⟨hall, -⟩
  · by_contra hne
    have hone : (1 : ℤ) < (s.requests true).firstUnused := lt_of_le_of_ne hpos (Ne.symm hne)
    exact Bool.false_ne_true ((hunused 1).symm.trans (hsmaller 1 (by norm_num) hone))
  · exact absurd ((hunused 1).symm.trans (hall 1 (by norm_num) (by norm_num))) Bool.false_ne_true

/-- A request that is open all the time, and another instance that goes through the other numbers. -/
theorem wrapped_id_taken : ∃ ms s, Runs.run step (start : Drawing Bool) ms = some s ∧ s.active false 1 ∧
    s.returned true = 1 ∧ ¬s.Unique (true, .invoke (.newRequest .initial someRoot [] [])) := by
  let first : List (Bool × Move Op) := [(false, .invoke (.newRequest .initial someRoot [] []))]
  have hfirst : Runs.run step (start : Drawing Bool) first = some (Runs.last step start first) :=
    Runs.run_last (by decide +kernel)
  have hidle : (Runs.last step (start : Drawing Bool) first).Idle 1 :=
    ⟨by decide +kernel, (OrdMap.isEmpty_iff _).mp (by decide +kernel), by unfold active; decide +kernel,
      by decide +kernel⟩
  obtain ⟨k, hk⟩ : ∃ k, 1 + k + 1 = 2 ^ 31 := ⟨2 ^ 31 - 2, by omega⟩
  obtain ⟨ms, s, hrun, hs⟩ := hidle.draws k (by omega)
  have hreturned := hs.returned_first hk
  refine ⟨first ++ ms, s, by rw [Runs.run_append, hfirst]; exact hrun, hs.first, hreturned, ?_⟩
  rintro (hzero | ⟨-, hnone⟩)
  · exact absurd (hreturned.symm.trans hzero) (by norm_num)
  · exact hnone false (hreturned ▸ hs.first)

end Drawing
end IpfsLite.Graphsync
