import IpfsLite.Foundations.Cbor

/-! # `CborBuffering`

The scanner that finds where a CBOR item ends (`common/libp2p/cbor_buffering.cpp`). `consume` works
on a whole piece of input; `byte` is the same scanner one byte at a time. -/
namespace IpfsLite.Common
set_option autoImplicit false

open Cbor (Major Argument Items bigEndian)

namespace CborBuffering

inductive Error where
  | invalidHeadType
  | invalidHeadValue
  deriving DecidableEq, Repr

inductive Kind where
  | unsigned
  | signed
  | bytes
  | text
  | array
  | map
  | tag
  deriving DecidableEq, Repr

structure Head where
  type : Kind
  value : ℕ
  deriving DecidableEq, Repr

namespace Head

/-- The major type in the upper three bits. -/
def majorType (first : UInt8) : Except Error Kind :=
  match (first &&& 0xe0) >>> 5 with
  | 0 => .ok .unsigned
  | 1 => .ok .signed
  | 2 => .ok .bytes
  | 3 => .ok .text
  | 4 => .ok .array
  | 5 => .ok .map
  | 6 => .ok .tag
  | _ => .error .invalidHeadType

/-- The value in the lower five bits, or how many more bytes it takes. -/
def additional (first : UInt8) : Except Error (ℕ × ℕ) :=
  let info := first &&& 0x1f
  if info < 24 then .ok (0, info.toNat)
  else
    match info with
    | 24 => .ok (1, 0)
    | 25 => .ok (2, 0)
    | 26 => .ok (4, 0)
    | 27 => .ok (8, 0)
    | _ => .error .invalidHeadValue

def first (first : UInt8) : Except Error (ℕ × Head) := do
  let type ← majorType first
  let (more, value) ← additional first
  .ok (more, ⟨type, value⟩)

/-- `value << 8 | next`. -/
def next (head : Head) (next : UInt8) : Head :=
  { head with value := (head.value * 256 + next.toNat) % 2 ^ 64 }

/-- The loop over the bytes that are there: how many are missing, and what is left. -/
def nexts : ℕ → Head → Bytes → ℕ × Head × Bytes
  | 0, head, input => (0, head, input)
  | more, head, [] => (more, head, [])
  | more + 1, head, b :: input => nexts more (head.next b) input

end Head
end CborBuffering

open CborBuffering in
/-- `more_nested` has the innermost container first. -/
structure CborBuffering where
  moreNested : List ℕ
  moreBytes : ℕ
  partialHead : Option Head
  deriving DecidableEq, Repr

namespace CborBuffering

def init : CborBuffering := ⟨[], 0, none⟩

/-- `moreBytes()`. -/
def required (s : CborBuffering) : ℕ :=
  if s.moreBytes ≠ 0 then s.moreBytes else if s.moreNested = [] then 0 else 1

def done (s : CborBuffering) : Bool := s.required = 0 ∧ s.moreNested = []

def reset (s : CborBuffering) : CborBuffering := { s with moreNested := 1 :: s.moreNested }

/-- `--more_nested.back()`. -/
def countDown : List ℕ → List ℕ
  | [] => []
  | n :: outer => (n - 1) :: outer

/-- Leaves the containers that are complete. -/
def leave (nested : List ℕ) : List ℕ := nested.dropWhile (· = 0)

/-- What a complete head does: the state after it and the input that is left. -/
def enter (nested : List ℕ) (head : Head) (input : Bytes) : CborBuffering × Bytes :=
  let nested := countDown nested
  match head.type with
  | .unsigned | .signed => (⟨leave nested, 0, none⟩, input)
  | .bytes | .text =>
    let part := min head.value input.length
    (⟨leave nested, head.value - part, none⟩, input.drop part)
  | .array => (⟨leave (head.value :: nested), 0, none⟩, input)
  | .map => (⟨leave ((2 * head.value) % 2 ^ 64 :: nested), 0, none⟩, input)
  | .tag => (⟨leave (1 :: nested), 0, none⟩, input)

/-- The main loop: a round reads what there is of one head. -/
def scan : ℕ → CborBuffering → Bytes → Except Error (CborBuffering × Bytes)
  | 0, s, input => .ok (s, input)
  | _ + 1, s, [] => .ok (s, [])
  | fuel + 1, s, b :: rest =>
    if s.moreNested = [] then .ok (s, b :: rest)
    else do
      let (more, head, input) ←
        match s.partialHead with
        | some head => .ok (s.moreBytes, head, b :: rest)
        | none => (Head.first b).map fun (more, head) => (more, head, rest)
      let (more, head, input) := Head.nexts more head input
      if more ≠ 0 then .ok (⟨s.moreNested, more, some head⟩, input)
      else
        let (s, input) := enter s.moreNested head input
        scan fuel s input

/-- The state after the input and how much of it belongs to the item. A round of the loop takes a
byte at least. -/
def consume (s : CborBuffering) (input : Bytes) : Except Error (ℕ × CborBuffering) := do
  let (s, rest) :=
    if s.partialHead = none ∧ s.moreBytes ≠ 0 then
      let part := min s.moreBytes input.length
      ({ s with moreBytes := s.moreBytes - part }, input.drop part)
    else (s, input)
  let (s, rest) ← scan (rest.length + 1) s rest
  .ok (input.length - rest.length, s)

/-! `consume` with the state that it leaves, which is that of its last round when it fails. -/

def tryScan : ℕ → CborBuffering → Bytes → Except Error Bytes × CborBuffering
  | 0, s, input => (.ok input, s)
  | _ + 1, s, [] => (.ok [], s)
  | fuel + 1, s, b :: rest =>
    if s.moreNested = [] then (.ok (b :: rest), s)
    else
      match
        match s.partialHead with
        | some head => Except.ok (s.moreBytes, head, b :: rest)
        | none => (Head.first b).map fun (more, head) => (more, head, rest)
      with
      | .error e => (.error e, s)
      | .ok (more, head, input) =>
        let (more, head, input) := Head.nexts more head input
        if more ≠ 0 then (.ok input, ⟨s.moreNested, more, some head⟩)
        else
          let (s, input) := enter s.moreNested head input
          tryScan fuel s input

def tryConsume (s : CborBuffering) (input : Bytes) : Except Error ℕ × CborBuffering :=
  let (s, rest) :=
    if s.partialHead = none ∧ s.moreBytes ≠ 0 then
      let part := min s.moreBytes input.length
      ({ s with moreBytes := s.moreBytes - part }, input.drop part)
    else (s, input)
  let (rest, s) := tryScan (rest.length + 1) s rest
  (rest.map fun rest => input.length - rest.length, s)

/-! ## One byte at a time -/

def byte (s : CborBuffering) (b : UInt8) : Except Error CborBuffering :=
  match s.partialHead with
  | some head =>
    if s.moreBytes = 1 then .ok (enter s.moreNested (head.next b) []).1
    else .ok { s with moreBytes := s.moreBytes - 1, partialHead := some (head.next b) }
  | none =>
    if s.moreBytes ≠ 0 then .ok { s with moreBytes := s.moreBytes - 1 }
    else do
      let (more, head) ← Head.first b
      if more = 0 then .ok (enter s.moreNested head []).1
      else .ok { s with moreBytes := more, partialHead := some head }

/-- Stops where the item is complete. -/
def feed : CborBuffering → Bytes → Except Error (CborBuffering × Bytes)
  | s, [] => .ok (s, [])
  | s, b :: input => if s.done then .ok (s, b :: input) else (s.byte b).bind fun s => feed s input

def tryFeed : CborBuffering → Bytes → Except Error Bytes × CborBuffering
  | s, [] => (.ok [], s)
  | s, b :: input =>
    if s.done then (.ok (b :: input), s)
    else
      match s.byte b with
      | .error e => (.error e, s)
      | .ok s => tryFeed s input

theorem done_iff (s : CborBuffering) : s.done = true ↔ s.moreBytes = 0 ∧ s.moreNested = [] := by
  obtain ⟨nested, more, part⟩ := s
  cases nested <;> simp [done, required]

/-- Where `byte` leads to: a head is partial only while bytes of it are missing. -/
structure Sound (s : CborBuffering) : Prop where
  missing : s.partialHead ≠ none → s.moreBytes ≠ 0 ∧ s.moreNested ≠ []

theorem init_sound : Sound init := ⟨fun h => absurd rfl h⟩

theorem Sound.reset {s : CborBuffering} (h : Sound s) : Sound s.reset :=
  ⟨fun hp => ⟨(h.missing hp).1, List.cons_ne_nil _ _⟩⟩

theorem enter_partialHead (nested : List ℕ) (head : Head) (input : Bytes) :
    (enter nested head input).1.partialHead = none := by
  unfold enter
  cases head.type <;> rfl

/-! ### Splitting the input -/

theorem feed_of_done {s : CborBuffering} (h : s.done = true) (input : Bytes) :
    feed s input = .ok (s, input) := by
  cases input with
  | nil => rfl
  | cons b input => rw [feed, if_pos h]

theorem feed_cons {s : CborBuffering} (h : ¬ s.done = true) (b : UInt8) (input : Bytes) :
    feed s (b :: input) = (s.byte b).bind fun s => feed s input := by
  rw [feed, if_neg h]

/-- What is left is the end of the input, and there is something left only if the item is complete. -/
theorem feed_suffix {s t : CborBuffering} {input rest : Bytes} (h : feed s input = .ok (t, rest)) :
    ∃ used, input = used ++ rest ∧ (rest ≠ [] → t.done = true) := by
  induction input generalizing s with
  | nil =>
    obtain ⟨rfl, rfl⟩ := Prod.mk.injEq .. ▸ Except.ok.inj h
    exact ⟨[], rfl, fun hne => absurd rfl hne⟩
  | cons b input ih =>
    by_cases hdone : s.done = true
    · rw [feed_of_done hdone] at h
      obtain ⟨rfl, rfl⟩ := Prod.mk.injEq .. ▸ Except.ok.inj h
      exact ⟨[], rfl, fun _ => hdone⟩
    · rw [feed_cons hdone] at h
      cases hb : s.byte b with
      | error e => simp [hb, Except.bind] at h
      | ok s' =>
        rw [hb] at h
        obtain ⟨used, rfl, hfinal⟩ := ih h
        exact ⟨b :: used, rfl, hfinal⟩

theorem feed_append (s : CborBuffering) (a b : Bytes) :
    feed s (a ++ b) = (feed s a).bind fun (t, rest) => feed t (rest ++ b) := by
  induction a generalizing s with
  | nil => rfl
  | cons c a ih =>
    by_cases hdone : s.done = true
    · rw [feed_of_done hdone, feed_of_done hdone]
      exact (feed_of_done hdone _).symm
    · rw [List.cons_append, feed_cons hdone, feed_cons hdone]
      cases s.byte c with
      | error e => rfl
      | ok s' => exact ih s'

/-! ### States after an error -/

/-- What is returned when there is no error. -/
def kept (r : Except Error Bytes × CborBuffering) : Except Error (CborBuffering × Bytes) :=
  r.1.map fun rest => (r.2, rest)

theorem tryFeed_of_done {s : CborBuffering} (h : s.done = true) (input : Bytes) :
    tryFeed s input = (.ok input, s) := by
  cases input with
  | nil => rfl
  | cons b input => rw [tryFeed, if_pos h]

theorem tryFeed_error {s : CborBuffering} (h : ¬ s.done = true) {b : UInt8} {e : Error} (hb : s.byte b = .error e)
    (input : Bytes) : tryFeed s (b :: input) = (.error e, s) := by rw [tryFeed, if_neg h, hb]

theorem tryFeed_ok {s s' : CborBuffering} (h : ¬ s.done = true) {b : UInt8} (hb : s.byte b = .ok s')
    (input : Bytes) : tryFeed s (b :: input) = tryFeed s' input := by rw [tryFeed, if_neg h, hb]

theorem feed_kept (s : CborBuffering) (input : Bytes) : feed s input = kept (tryFeed s input) := by
  induction input generalizing s with
  | nil => rfl
  | cons b input ih =>
    by_cases hdone : s.done = true
    · rw [feed_of_done hdone, tryFeed_of_done hdone]
      rfl
    · rw [feed_cons hdone]
      cases hb : s.byte b with
      | error e =>
        rw [tryFeed_error hdone hb]
        rfl
      | ok s' =>
        rw [tryFeed_ok hdone hb]
        exact ih s'

theorem scan_kept (fuel : ℕ) (s : CborBuffering) (input : Bytes) :
    scan fuel s input = kept (tryScan fuel s input) := by
  induction fuel generalizing s input with
  | zero => rfl
  | succ fuel ih =>
    cases input with
    | nil => rfl
    | cons b rest =>
      have hround : ∀ more head input,
          (let (more, head, input) := Head.nexts more head input
            if more ≠ 0 then (.ok (⟨s.moreNested, more, some head⟩, input) : Except Error (CborBuffering × Bytes))
            else
              let (s, input) := enter s.moreNested head input
              scan fuel s input) =
          kept (let (more, head, input) := Head.nexts more head input
            if more ≠ 0 then (.ok input, ⟨s.moreNested, more, some head⟩)
            else
              let (s, input) := enter s.moreNested head input
              tryScan fuel s input) := by
        intro more head input
        by_cases hmore : (Head.nexts more head input).1 ≠ 0
        · simp only [if_pos hmore]
          rfl
        · simp only [if_neg hmore]
          exact ih _ _
      by_cases hnested : s.moreNested = []
      · rw [scan, tryScan, if_pos hnested, if_pos hnested]
        rfl
      · rw [scan, tryScan, if_neg hnested, if_neg hnested]
        cases s.partialHead with
        | some head => exact hround _ head _
        | none =>
          cases Head.first b with
          | error e => rfl
          | ok first => exact hround _ first.2 _

/-! ### `consume` is `feed` -/

/-- The bytes of a string are skipped. -/
theorem tryFeed_payload (nested : List ℕ) (k : ℕ) (input : Bytes) :
    tryFeed ⟨nested, k, none⟩ input =
      tryFeed ⟨nested, k - min k input.length, none⟩ (input.drop (min k input.length)) := by
  induction input generalizing k with
  | nil => simp
  | cons b input ih =>
    cases k with
    | zero => simp
    | succ k =>
      have hdone : ¬ (⟨nested, k + 1, none⟩ : CborBuffering).done = true := by simp [done_iff]
      have hbyte : (⟨nested, k + 1, none⟩ : CborBuffering).byte b = .ok ⟨nested, k, none⟩ := by
        simp [byte]
      rw [tryFeed_ok hdone hbyte, List.length_cons, Nat.add_min_add_right, Nat.add_sub_add_right,
        List.drop_succ_cons]
      exact ih k

theorem feed_payload (nested : List ℕ) (k : ℕ) (input : Bytes) :
    feed ⟨nested, k, none⟩ input =
      feed ⟨nested, k - min k input.length, none⟩ (input.drop (min k input.length)) := by
  rw [feed_kept, feed_kept, tryFeed_payload]

theorem nexts_rest {more : ℕ} {head : Head} {input : Bytes} :
    (Head.nexts more head input).2.2.length ≤ input.length ∧
      ((Head.nexts more head input).1 ≠ 0 → (Head.nexts more head input).2.2 = []) := by
  induction input generalizing more head with
  | nil => cases more <;> simp [Head.nexts]
  | cons b input ih =>
    cases more with
    | zero => simp [Head.nexts]
    | succ more =>
      obtain ⟨hlength, hrest⟩ := @ih more (head.next b)
      exact ⟨Nat.le_succ_of_le hlength, hrest⟩

/-- The rest of a head is read, as far as it is there. -/
theorem tryFeed_nexts (nested : List ℕ) {more : ℕ} (hmore : more ≠ 0) (head : Head) (input : Bytes) :
    tryFeed ⟨nested, more, some head⟩ input =
      let (more', head', rest) := Head.nexts more head input
      if more' ≠ 0 then (.ok rest, ⟨nested, more', some head'⟩)
      else tryFeed (enter nested head' []).1 rest := by
  induction input generalizing more head with
  | nil => cases more <;> simp_all [Head.nexts, tryFeed]
  | cons b input ih =>
    have hdone : ¬ (⟨nested, more, some head⟩ : CborBuffering).done = true := by
      rw [done_iff]
      exact fun h => hmore h.1
    obtain ⟨more, rfl⟩ := Nat.exists_eq_succ_of_ne_zero hmore
    cases more with
    | zero =>
      have hbyte : (⟨nested, 1, some head⟩ : CborBuffering).byte b =
          .ok (enter nested (head.next b) []).1 := by simp [byte]
      rw [tryFeed_ok hdone hbyte]
      simp [Head.nexts]
    | succ more =>
      have hbyte : (⟨nested, more + 1 + 1, some head⟩ : CborBuffering).byte b =
          .ok ⟨nested, more + 1, some (head.next b)⟩ := by simp [byte]
      rw [tryFeed_ok hdone hbyte]
      exact ih (Nat.succ_ne_zero more) (head.next b)

theorem feed_nexts (nested : List ℕ) {more : ℕ} (hmore : more ≠ 0) (head : Head) (input : Bytes) :
    feed ⟨nested, more, some head⟩ input =
      let (more', head', rest) := Head.nexts more head input
      if more' ≠ 0 then .ok (⟨nested, more', some head'⟩, rest)
      else feed (enter nested head' []).1 rest := by
  rw [feed_kept, tryFeed_nexts nested hmore]
  by_cases hzero : (Head.nexts more head input).1 ≠ 0
  · simp only [if_pos hzero]
    rfl
  · simp only [if_neg hzero]
    exact (feed_kept _ _).symm

/-- It does not matter whether a complete head sees the input or is given it later. -/
theorem tryFeed_enter (nested : List ℕ) (head : Head) (input : Bytes) :
    tryFeed (enter nested head []).1 input =
      tryFeed (enter nested head input).1 (enter nested head input).2 := by
  unfold enter
  cases head.type with
  | bytes | text =>
    simp only [List.length_nil, Nat.min_zero, Nat.sub_zero]
    exact tryFeed_payload _ _ _
  | unsigned | signed | array | map | tag => rfl

theorem enter_rest (nested : List ℕ) (head : Head) (input : Bytes) :
    (enter nested head input).2.length ≤ input.length ∧
      ((enter nested head input).1.moreBytes = 0 ∨ (enter nested head input).2 = []) := by
  unfold enter
  cases head.type with
  | bytes | text =>
    simp only [List.length_drop, List.drop_eq_nil_iff]
    omega
  | unsigned | signed | array | map | tag => exact ⟨le_rfl, .inl rfl⟩

theorem enter_sound (nested : List ℕ) (head : Head) (input : Bytes) :
    Sound (enter nested head input).1 :=
  ⟨fun h => absurd (enter_partialHead nested head input) h⟩

/-- The loop reads what `tryFeed` reads. -/
theorem tryScan_eq {fuel : ℕ} {s : CborBuffering} {input : Bytes} (hs : Sound s)
    (hfuel : input.length ≤ fuel) (hready : s.partialHead = none → s.moreBytes = 0 ∨ input = []) :
    tryScan fuel s input = tryFeed s input := by
  induction fuel generalizing s input with
  | zero =>
    obtain rfl := List.length_eq_zero_iff.mp (Nat.le_zero.mp hfuel)
    rfl
  | succ fuel ih =>
    cases input with
    | nil => rfl
    | cons b rest =>
      obtain ⟨nested, more, part⟩ := s
      rw [List.length_cons, Nat.add_le_add_iff_right] at hfuel
      -- a complete head leaves a sound state and less input than there was
      have henter : ∀ head input, input.length ≤ rest.length →
          tryScan fuel (enter nested head input).1 (enter nested head input).2 =
            tryFeed (enter nested head []).1 input := by
        intro head input hinput
        obtain ⟨hlength, hmore⟩ := enter_rest nested head input
        rw [tryFeed_enter]
        exact ih (enter_sound nested head input) (by omega) fun _ => hmore
      by_cases hnested : nested = []
      · have hpart : part = none := by
          by_contra h
          exact (hs.missing h).2 hnested
        obtain hmore | hnil := hready hpart
        · have hdone : (⟨nested, more, part⟩ : CborBuffering).done = true :=
            (done_iff _).mpr ⟨hmore, hnested⟩
          rw [tryFeed_of_done hdone, tryScan, if_pos hnested]
        · exact absurd hnil (List.cons_ne_nil b rest)
      cases part with
      | some head =>
        have hmore : more ≠ 0 := (hs.missing (Option.some_ne_none head)).1
        obtain ⟨more, rfl⟩ := Nat.exists_eq_succ_of_ne_zero hmore
        rw [tryFeed_nexts nested hmore]
        have hrest : (Head.nexts (more + 1) head (b :: rest)).2.2.length ≤ rest.length := by
          show (Head.nexts more (head.next b) rest).2.2.length ≤ rest.length
          exact nexts_rest.1
        simp only [tryScan, if_neg hnested]
        by_cases hzero : (Head.nexts (more + 1) head (b :: rest)).1 = 0
        · simp only [hzero, ne_eq, not_true, if_false]
          exact henter _ _ hrest
        · simp only [hzero, ne_eq, not_false_eq_true, if_true]
      | none =>
        obtain rfl | hnil := hready rfl
        · have hdone : ¬ (⟨nested, 0, none⟩ : CborBuffering).done = true := by
            rw [done_iff]
            exact fun h => hnested h.2
          simp only [tryScan, tryFeed, if_neg hnested, if_neg hdone, byte, ne_eq, not_true, if_false, bind,
            Except.bind, Except.map]
          cases Head.first b with
          | error e => rfl
          | ok first =>
            obtain ⟨more, head⟩ := first
            by_cases hmore : more = 0
            · subst hmore
              have hnexts : Head.nexts 0 head rest = (0, head, rest) := by cases rest <;> rfl
              simp only [hnexts, not_true, if_false, if_true]
              exact henter head rest le_rfl
            · simp only [if_neg hmore, tryFeed_nexts nested hmore]
              by_cases hzero : (Head.nexts more head rest).1 = 0
              · simp only [hzero, not_true, if_false]
                exact henter _ _ nexts_rest.1
              · simp only [hzero, ne_eq, not_false_eq_true, if_true]
        · exact absurd hnil (List.cons_ne_nil b rest)

/-- `tryConsume` takes from the input what `tryFeed` takes. -/
theorem tryConsume_eq {s : CborBuffering} (hs : Sound s) (input : Bytes) :
    s.tryConsume input =
      ((tryFeed s input).1.map fun rest => input.length - rest.length, (tryFeed s input).2) := by
  obtain ⟨nested, more, part⟩ := s
  unfold tryConsume
  by_cases hskip : part = none ∧ more ≠ 0
  · obtain ⟨rfl, hmore⟩ := hskip
    have hready : more - min more input.length = 0 ∨ input.drop (min more input.length) = [] := by
      rw [List.drop_eq_nil_iff]
      omega
    simp only [ne_eq, hmore, not_false_eq_true, and_self, if_true, tryFeed_payload nested more input]
    rw [tryScan_eq ⟨fun h => absurd rfl h⟩ (Nat.le_succ _) fun _ => hready]
  · have hready : part = none → more = 0 ∨ input = [] := by
      intro hpart
      exact .inl (by_contra fun hmore => hskip ⟨hpart, hmore⟩)
    simp only [if_neg hskip]
    rw [tryScan_eq hs (Nat.le_succ _) hready]

theorem consume_tryConsume (s : CborBuffering) (input : Bytes) :
    s.consume input = (s.tryConsume input).1.map fun n => (n, (s.tryConsume input).2) := by
  have hround : ∀ s rest, (do
        let (s, rest) ← scan ((rest : Bytes).length + 1) s rest
        .ok (input.length - rest.length, s) : Except Error (ℕ × CborBuffering)) =
      ((tryScan (rest.length + 1) s rest).1.map fun rest => input.length - rest.length).map
        fun n => (n, (tryScan (rest.length + 1) s rest).2) := by
    intro s rest
    rw [scan_kept]
    cases h : tryScan (rest.length + 1) s rest with
    | mk r t => cases r <;> rfl
  unfold consume tryConsume
  split_ifs <;> exact hround _ _

/-- `consume` takes from the input what `feed` takes. -/
theorem consume_eq {s : CborBuffering} (hs : Sound s) (input : Bytes) :
    s.consume input = (feed s input).map fun (t, rest) => (input.length - rest.length, t) := by
  rw [consume_tryConsume, tryConsume_eq hs, feed_kept]
  cases h : tryFeed s input with
  | mk r t => cases r <;> rfl

theorem byte_sound {s t : CborBuffering} {b : UInt8} (hs : Sound s) (hdone : ¬ s.done = true)
    (h : s.byte b = .ok t) : Sound t := by
  obtain ⟨nested, more, part⟩ := s
  rw [done_iff] at hdone
  cases part with
  | some head =>
    obtain ⟨hmore, hnested⟩ := hs.missing (Option.some_ne_none head)
    by_cases hone : more = 1
    · simp only [byte, if_pos hone, Except.ok.injEq] at h
      exact h ▸ enter_sound nested _ []
    · simp only [byte, if_neg hone, Except.ok.injEq] at h
      subst h
      have hleft : more - 1 ≠ 0 := by
        have hpos : more ≠ 0 := hmore
        omega
      exact ⟨fun _ => ⟨hleft, hnested⟩⟩
  | none =>
    by_cases hmore : more = 0
    · simp only [byte, hmore, ne_eq, not_true, if_false] at h
      cases hfirst : Head.first b with
      | error e => simp [hfirst, bind, Except.bind] at h
      | ok first =>
        obtain ⟨more', head⟩ := first
        simp only [hfirst, bind, Except.bind] at h
        by_cases hzero : more' = 0
        · rw [if_pos hzero, Except.ok.injEq] at h
          exact h ▸ enter_sound nested _ []
        · rw [if_neg hzero, Except.ok.injEq] at h
          subst h
          exact ⟨fun _ => ⟨hzero, fun hnested => hdone ⟨hmore, hnested⟩⟩⟩
    · simp only [byte, ne_eq, hmore, not_false_eq_true, if_true, Except.ok.injEq] at h
      subst h
      exact ⟨fun hp => absurd rfl hp⟩

theorem feed_sound {s t : CborBuffering} {input rest : Bytes} (hs : Sound s)
    (h : feed s input = .ok (t, rest)) : Sound t := by
  induction input generalizing s with
  | nil =>
    obtain ⟨rfl, rfl⟩ := Prod.mk.injEq .. ▸ Except.ok.inj h
    exact hs
  | cons b input ih =>
    by_cases hdone : s.done = true
    · rw [feed_of_done hdone] at h
      obtain ⟨rfl, rfl⟩ := Prod.mk.injEq .. ▸ Except.ok.inj h
      exact hs
    · rw [feed_cons hdone] at h
      cases hb : s.byte b with
      | error e => simp [hb, Except.bind] at h
      | ok s' =>
        rw [hb] at h
        exact ih (byte_sound hs hdone hb) h

/-! ## Items -/

/-- Between two heads, in containers that still expect so many items. -/
def between (nested : List ℕ) : CborBuffering := ⟨nested, 0, none⟩

theorem between_sound (nested : List ℕ) : Sound (between nested) := ⟨fun h => absurd rfl h⟩

/-- Major type 7 has no kind. -/
def kindOf : Major → Option Kind
  | .unsigned => some .unsigned
  | .negative => some .signed
  | .bytes => some .bytes
  | .text => some .text
  | .array => some .array
  | .map => some .map
  | .tag => some .tag
  | .simple => none

theorem majorType_head (m : Major) {info : ℕ} (h : info < 28) :
    Head.majorType (UInt8.ofNat (m.code * 32 + info)) =
      match kindOf m with
      | some k => .ok k
      | none => .error .invalidHeadType := by
  revert info
  cases m <;> decide

theorem additional_head (m : Major) (a : Argument) :
    Head.additional (UInt8.ofNat (m.code * 32 + a.info)) =
      .ok (a.width.size, if a.width = .inline then a.value else 0) := by
  have hinline : ∀ v < 24, Head.additional (UInt8.ofNat (m.code * 32 + v)) = .ok (0, v) := by
    cases m <;> decide
  obtain ⟨w, v, hv⟩ := a
  cases w with
  | inline => exact hinline v hv
  | one | two | four | eight =>
    simp only [Argument.info, reduceCtorEq, if_false]
    cases m <;> decide

theorem nexts_bigEndian (t : Kind) (k : ℕ) {n v : ℕ} (h : v * 256 ^ k + n % 256 ^ k < 2 ^ 64)
    (rest : Bytes) : Head.nexts k ⟨t, v⟩ (bigEndian k n ++ rest) =
      (0, ⟨t, v * 256 ^ k + n % 256 ^ k⟩, rest) := by
  induction k generalizing v with
  | zero => cases rest <;> simp [bigEndian, Head.nexts, Nat.mod_one]
  | succ k ih =>
    have hvalue : v * 256 ^ (k + 1) + n % 256 ^ (k + 1) =
        (v * 256 + n / 256 ^ k % 256) * 256 ^ k + n % 256 ^ k := by
      rw [Cbor.mod_pow_succ]
      ring
    rw [hvalue] at h ⊢
    have hle : v * 256 + n / 256 ^ k % 256 ≤ (v * 256 + n / 256 ^ k % 256) * 256 ^ k :=
      Nat.le_mul_of_pos_right _ (Nat.pow_pos (by decide))
    have hnext : (v * 256 + n / 256 ^ k % 256) % 2 ^ 64 = v * 256 + n / 256 ^ k % 256 :=
      Nat.mod_eq_of_lt (by omega)
    rw [bigEndian, List.cons_append, Head.nexts, Head.next, UInt8.toNat_ofNat', hnext]
    exact ih h

/-- A head is read to its end, a simple value is refused. -/
theorem feed_head {nested : List ℕ} (hnested : nested ≠ []) (m : Major) (a : Argument) (rest : Bytes) :
    feed (between nested) (Cbor.head m a ++ rest) =
      match kindOf m with
      | some k => feed (enter nested ⟨k, a.value⟩ []).1 rest
      | none => .error .invalidHeadType := by
  have hdone : ¬ (between nested).done = true := by
    rw [done_iff]
    exact fun h => hnested h.2
  rw [Cbor.head, List.cons_append, feed_cons hdone]
  simp only [byte, between, ne_eq, not_true, if_false, Head.first, majorType_head m a.info_lt,
    additional_head, bind, Except.bind]
  cases kindOf m with
  | none => rfl
  | some k =>
    obtain ⟨w, v, hv⟩ := a
    by_cases hw : w = .inline
    · subst hw
      simp [Cbor.Width.size, bigEndian]
    · have hsize : w.size ≠ 0 := by cases w <;> simp_all [Cbor.Width.size]
      have hlimit : v < 256 ^ w.size := by cases w <;> simp_all [Cbor.Width.limit]
      have hbound : 0 * 256 ^ w.size + v % 256 ^ w.size < 2 ^ 64 := by
        rw [Nat.mod_eq_of_lt hlimit, Nat.zero_mul, Nat.zero_add]
        exact Argument.value_lt ⟨w, v, hv⟩
      simp only [hsize, if_false, hw, feed_nexts nested hsize, nexts_bigEndian k w.size hbound,
        ne_eq, not_true, Nat.zero_mul, Nat.zero_add, Nat.mod_eq_of_lt hlimit]

theorem leave_zero (nested : List ℕ) : leave (0 :: nested) = leave nested := rfl

theorem leave_succ (n : ℕ) (nested : List ℕ) : leave ((n + 1) :: nested) = (n + 1) :: nested := rfl

theorem feed_string (nested : List ℕ) {data : Bytes} {v : ℕ} (h : data.length = v) (rest : Bytes) :
    feed ⟨nested, v, none⟩ (data ++ rest) = feed (between nested) rest := by
  have hmin : min v (data ++ rest).length = data.length := by
    rw [List.length_append]
    omega
  rw [feed_payload, hmin, h, Nat.sub_self, ← h, List.drop_left]
  rfl

/-- The items that a container expects are read, or the first simple value among them is refused. -/
theorem feed_items {p : Bool} {n : ℕ} {bytes : Bytes} (h : Items (2 ^ 64) p n bytes)
    (k : ℕ) (outer : List ℕ) (rest : Bytes) :
    feed (between (leave ((n + k) :: outer))) (bytes ++ rest) =
      if p then .error .invalidHeadType else feed (between (leave (k :: outer))) rest := by
  -- what an opened container does: its own items are read, then those that follow it
  have hopen : ∀ {q p : Bool} {m n : ℕ} {inner rest' : Bytes},
      (∀ k outer rest, feed (between (leave ((m + k) :: outer))) (inner ++ rest) =
        if q then .error .invalidHeadType else feed (between (leave (k :: outer))) rest) →
      (∀ k outer rest, feed (between (leave ((n + k) :: outer))) (rest' ++ rest) =
        if p then .error .invalidHeadType else feed (between (leave (k :: outer))) rest) →
      ∀ k outer rest, feed (between (leave (m :: (n + k) :: outer))) (inner ++ (rest' ++ rest)) =
        if q || p then .error .invalidHeadType else feed (between (leave (k :: outer))) rest := by
    intro q p m n inner rest' hinner hrest k outer rest
    rw [← Nat.add_zero m, hinner, leave_zero, hrest]
    cases q <;> cases p <;> rfl
  induction h generalizing k outer rest with
  | nil => simp
  | integer hm _ ih =>
    rw [Nat.add_right_comm, leave_succ, List.append_assoc, feed_head (List.cons_ne_nil _ _)]
    obtain rfl | rfl := hm <;> exact ih k outer rest
  | string hm hdata _ ih =>
    rw [Nat.add_right_comm, leave_succ, List.append_assoc, List.append_assoc,
      feed_head (List.cons_ne_nil _ _)]
    have hnext := (feed_string (leave (_ :: outer)) hdata _).trans (ih k outer rest)
    obtain rfl | rfl := hm <;> simpa [kindOf, enter, countDown] using hnext
  | array _ _ _ ih₁ ih₂ =>
    rw [Nat.add_right_comm, leave_succ, List.append_assoc, List.append_assoc,
      feed_head (List.cons_ne_nil _ _)]
    exact hopen ih₁ ih₂ k outer rest
  | @map a inner _ _ _ _ hcount _ _ ih₁ ih₂ =>
    have hsmall : 2 * a.value % 2 ^ 64 = 2 * a.value := Nat.mod_eq_of_lt hcount
    have henter : ∀ nested, enter nested ⟨.map, a.value⟩ [] =
        (between (leave (2 * a.value :: countDown nested)), []) := by
      intro nested
      rw [enter]
      simp only [hsmall]
      rfl
    rw [Nat.add_right_comm, leave_succ, List.append_assoc, List.append_assoc,
      feed_head (List.cons_ne_nil _ _)]
    simp only [kindOf, henter]
    exact hopen ih₁ ih₂ k outer rest
  | tag _ _ ih₁ ih₂ =>
    rw [Nat.add_right_comm, leave_succ, List.append_assoc, List.append_assoc,
      feed_head (List.cons_ne_nil _ _)]
    exact hopen ih₁ ih₂ k outer rest
  | simple _ _ _ =>
    rw [Nat.add_right_comm, leave_succ, List.append_assoc, feed_head (List.cons_ne_nil _ _)]
    rfl

/-- From the start of an item to its end. -/
theorem feed_item {p : Bool} {bytes : Bytes} (h : Items (2 ^ 64) p 1 bytes) (rest : Bytes) : feed init.reset (bytes ++ rest) =
      if p then .error .invalidHeadType else .ok (init, rest) := by
  have hstart : init.reset = between (leave ((1 + 0) :: [])) := rfl
  have hend : between (leave (0 :: [])) = init := rfl
  rw [hstart, feed_items h, hend, feed_of_done (by decide)]

end CborBuffering
end IpfsLite.Common
