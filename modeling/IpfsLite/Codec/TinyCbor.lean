import IpfsLite.Foundations.Cbor

/-! # tinycbor's parser

What the decoder relies on: heads of definite length are read as RFC 7049 has them, a container is
entered with the number of its items, every item but a tag is counted off, and nothing is read past
the last one. A `CborValue` points into the buffer of its parser. What a call does with a value that is
not of its kind is left open. -/
namespace IpfsLite.Codec
set_option autoImplicit false

open Cbor (Major Argument Items)

/-- `UINT32_MAX`, which stands for an unknown number of items. -/
def kUnknownCount : ℕ := 2 ^ 32 - 1

/-- Skipped as one item, unless a container in it holds more than can be counted. -/
abbrev Untagged (item : Bytes) : Prop := Cbor.Untagged kUnknownCount item

/-- The major type and the number in the head. There is none where the length is indefinite, nor for
floats and for simple values outside of the initial byte. -/
def peek : Bytes → Option (Major × Option ℕ)
  | [] => none
  | b :: rest =>
    let m := Major.ofCode (b.toNat / 32)
    let info := b.toNat % 32
    match Cbor.readHead (b :: rest) with
    | some (_, n, _) => some (m, if m = .simple ∧ 24 ≤ info then none else some n)
    | none =>
      if info = 31 ∧ (m = .bytes ∨ m = .text ∨ m = .array ∨ m = .map) then some (m, none) else none

/-- `ptr` is what lies between the pointer and the end of the parser, `type` is none when the value
is invalid. -/
structure CborValue where
  ptr : Bytes
  remaining : ℕ
  type : Option (Major × Option ℕ)
  deriving DecidableEq

namespace CborValue

/-- The value at a position, from the head that is there. -/
def reading (ptr : Bytes) (remaining : ℕ) : CborValue := ⟨ptr, remaining, peek ptr⟩

/-- Behind the last item. -/
def atEnd (ptr : Bytes) : CborValue := ⟨ptr, 0, none⟩

def isTag (v : CborValue) : Prop := ∃ n, v.type = some (.tag, n)

@[simp] theorem ptr_reading (ptr : Bytes) (r : ℕ) : (reading ptr r).ptr = ptr := rfl

@[simp] theorem remaining_reading (ptr : Bytes) (r : ℕ) : (reading ptr r).remaining = r := rfl

@[simp] theorem type_reading (ptr : Bytes) (r : ℕ) : (reading ptr r).type = peek ptr := rfl

@[simp] theorem ptr_atEnd (ptr : Bytes) : (atEnd ptr).ptr = ptr := rfl

@[simp] theorem remaining_atEnd (ptr : Bytes) : (atEnd ptr).remaining = 0 := rfl

@[simp] theorem type_atEnd (ptr : Bytes) : (atEnd ptr).type = none := rfl

end CborValue

theorem peek_head (m : Major) (a : Argument) (rest : Bytes) (h : m = .simple → a.width = .inline) :
    peek (Cbor.head m a ++ rest) = some (m, some a.value) := by
  obtain ⟨hmod, hmajor⟩ := Cbor.initial_byte m a
  have hread := Cbor.readHead_head m a rest
  have hinline : ¬ (m = .simple ∧ 24 ≤ a.info) := by
    rintro ⟨hm, hle⟩
    obtain ⟨w, v, hv⟩ := a
    obtain rfl : w = .inline := h hm
    exact absurd hle (Nat.not_le.mpr hv)
  rw [Cbor.head, List.cons_append] at hread ⊢
  simp only [peek, hread, hmod, hmajor, hinline, if_false]

/-- Floats and simple values of one byte have no number. -/
theorem peek_simple (a : Argument) (rest : Bytes) :
    ∃ n, peek (Cbor.head .simple a ++ rest) = some (.simple, n) := by
  obtain ⟨-, hmajor⟩ := Cbor.initial_byte .simple a
  have hread := Cbor.readHead_head .simple a rest
  rw [Cbor.head, List.cons_append] at hread ⊢
  simp only [peek, hread, hmajor]
  exact ⟨_, rfl⟩

theorem peek_major (m : Major) (a : Argument) (rest : Bytes) :
    ∃ n, peek (Cbor.head m a ++ rest) = some (m, n) := by
  by_cases hm : m = .simple
  · subst hm
    exact peek_simple a rest
  · exact ⟨_, peek_head m a rest fun h => absurd h hm⟩

/-- A head that the parser accepts: a simple value in a byte of its own is 32 at least. -/
def Starts (bytes : Bytes) : Prop :=
  ∃ m a rest, bytes = Cbor.head m a ++ rest ∧ (m = .simple → a.width = .one → 32 ≤ a.value)

/-- The items that the head of a container announces. -/
def containerCount (m : Major) (n : ℕ) : ℕ := if m = .map then 2 * n else n

/-- The calls of the parser, none is an error. Deep nesting is not limited: how far the parser
recurses is a setting of its build. -/
structure TinyCbor where
  parserInit : Bytes → Option CborValue
  advance : CborValue → Option CborValue
  skipTag : CborValue → Option CborValue
  enterContainer : CborValue → Option CborValue
  arrayLength : CborValue → Option ℕ
  copyString : CborValue → Option Bytes
  parserInit_nil : parserInit [] = none
  parserInit_starts : ∀ ptr, Starts ptr → parserInit ptr = some (.reading ptr 1)
  parserInit_reading : ∀ ptr v, parserInit ptr = some v → v = .reading ptr 1
  advance_past_end : ∀ v, v.remaining = 0 → advance v = none
  advance_tag : ∀ a rest r, r ≠ 0 → Starts rest →
    advance (.reading (Cbor.head .tag a ++ rest) r) = some (.reading rest r)
  advance_last : ∀ item rest, Untagged item → advance (.reading (item ++ rest) 1) = some (.atEnd rest)
  advance_next : ∀ item rest r, Untagged item → Starts rest → r ≠ 0 → r + 1 < kUnknownCount →
    advance (.reading (item ++ rest) (r + 1)) = some (.reading rest r)
  advance_oversized : ∀ bound item rest r, Cbor.Untagged bound item → ¬ Untagged item →
    advance (.reading (item ++ rest) r) = none
  advance_counts : ∀ v w, advance v = some w → ¬ v.isTag → v.remaining < kUnknownCount →
    w.remaining < v.remaining
  skipTag_past_end : ∀ v, v.isTag → v.remaining = 0 → skipTag v = none
  skipTag_chain : ∀ bound chain item rest r, r ≠ 0 → Cbor.Untagged bound item →
    skipTag (.reading (Cbor.tags chain ++ (item ++ rest)) r) = some (.reading (item ++ rest) r)
  skipTag_other : ∀ v, ¬ v.isTag → skipTag v = some v
  skipTag_counts : ∀ v w, skipTag v = some w → w.remaining = v.remaining ∧ ¬ w.isTag
  enterContainer_empty : ∀ m a rest r, m = .array ∨ m = .map → a.value = 0 →
    enterContainer (.reading (Cbor.head m a ++ rest) r) = some (.atEnd rest)
  enterContainer_items : ∀ m a rest r, m = .array ∨ m = .map → a.value ≠ 0 →
    containerCount m a.value < kUnknownCount → Starts rest →
    enterContainer (.reading (Cbor.head m a ++ rest) r) =
      some (.reading rest (containerCount m a.value))
  enterContainer_limit : ∀ v w m n, enterContainer v = some w → v.type = some (m, some n) →
    containerCount m n < kUnknownCount
  enterContainer_counts : ∀ v w, enterContainer v = some w → w.remaining ≤ kUnknownCount
  arrayLength_known : ∀ v n, v.type = some (.array, some n) → arrayLength v = some n
  arrayLength_unknown : ∀ v, v.type = some (.array, none) → arrayLength v = none
  copyString_copy : ∀ m a data rest, m = .bytes ∨ m = .text → data.length = a.value →
    copyString (.reading (Cbor.head m a ++ (data ++ rest)) 1) = some data
  copyString_length : ∀ v m n data, copyString v = some data → v.type = some (m, some n) → data.length = n

/-! ## A parser that does this -/

namespace TinyCbor

def preparse (ptr : Bytes) (remaining : ℕ) : Option CborValue :=
  (peek ptr).map fun _ => .reading ptr remaining

theorem preparse_head (m : Major) (a : Argument) (rest : Bytes) (r : ℕ) :
    preparse (Cbor.head m a ++ rest) r = some (.reading (Cbor.head m a ++ rest) r) := by
  obtain ⟨n, hn⟩ := peek_major m a rest
  rw [preparse, hn]
  rfl

theorem preparse_starts {ptr : Bytes} (h : Starts ptr) (r : ℕ) :
    preparse ptr r = some (.reading ptr r) := by
  obtain ⟨m, a, rest, rfl, -⟩ := h
  exact preparse_head m a rest r

theorem preparse_reading {ptr : Bytes} {r : ℕ} {v : CborValue} (h : preparse ptr r = some v) :
    v = .reading ptr r := by
  rw [preparse, Option.map_eq_some_iff] at h
  obtain ⟨_, -, rfl⟩ := h
  rfl

def stepOver (v : CborValue) : Option CborValue := do
  let rest ← Cbor.skipItems kUnknownCount (v.ptr.length + 1) 1 v.ptr
  if v.remaining = 1 then some (.atEnd rest) else preparse rest (v.remaining - 1)

def advanceOnce (v : CborValue) : Option CborValue :=
  if v.remaining = 0 then none
  else
    match v.type with
    | none => none
    | some (.tag, _) => do
      let (_, _, rest) ← Cbor.readHead v.ptr
      preparse rest v.remaining
    | some _ => stepOver v

def skipTags : ℕ → CborValue → Option CborValue
  | 0, _ => none
  | fuel + 1, v =>
    match v.type with
    | some (.tag, _) => (advanceOnce v).bind (skipTags fuel)
    | _ => some v

def enter (v : CborValue) : Option CborValue :=
  match v.type with
  | some (m, some n) =>
    if kUnknownCount ≤ containerCount m n then none
    else do
      let (_, _, rest) ← Cbor.readHead v.ptr
      if containerCount m n = 0 then some (.atEnd rest) else preparse rest (containerCount m n)
  | _ => none

def copy (v : CborValue) : Option Bytes :=
  match v.type with
  | some (_, some n) => do
    let (_, _, rest) ← Cbor.readHead v.ptr
    if rest.length < n then none else some (rest.take n)
  | _ => none

def length (v : CborValue) : Option ℕ :=
  match v.type with
  | some (.array, n) => n
  | _ => none

theorem advanceOnce_tag (a : Argument) {rest : Bytes} {r : ℕ} (hr : r ≠ 0) :
    advanceOnce (.reading (Cbor.head .tag a ++ rest) r) = preparse rest r := by
  have htype := peek_head .tag a rest (by simp)
  simp [advanceOnce, hr, htype, Cbor.readHead_head]

theorem advanceOnce_other {v : CborValue} (h : ¬ v.isTag) :
    advanceOnce v = if v.remaining = 0 ∨ v.type = none then none else stepOver v := by
  unfold advanceOnce
  by_cases hr : v.remaining = 0
  · simp [hr]
  · simp only [hr, if_false, false_or]
    obtain ⟨ptr, r, _ | ⟨m, n⟩⟩ := v
    · rfl
    · cases m <;> first | exact absurd ⟨n, rfl⟩ h | rfl

theorem untagged_type {bound : ℕ} {item : Bytes} (h : Cbor.Untagged bound item) (rest : Bytes) :
    ∃ m n, peek (item ++ rest) = some (m, n) ∧ m ≠ .tag := by
  obtain ⟨-, m, a, payload, rfl, hm⟩ := h
  obtain ⟨n, hn⟩ := peek_major m a (payload ++ rest)
  exact ⟨m, n, by rw [List.append_assoc, hn], hm⟩

theorem untagged_not_tag {bound : ℕ} {item : Bytes} (h : Cbor.Untagged bound item) (rest : Bytes) (r : ℕ) :
    ¬ (CborValue.reading (item ++ rest) r).isTag := by
  obtain ⟨m, n, htype, hm⟩ := untagged_type h rest
  rintro ⟨n', hn'⟩
  rw [CborValue.type_reading, htype, Option.some.injEq, Prod.mk.injEq] at hn'
  exact hm hn'.1

/-- An item without a tag is skipped as a whole. -/
theorem advanceOnce_untagged {item : Bytes} (h : Untagged item) (rest : Bytes) {r : ℕ} (hr : r ≠ 0) :
    advanceOnce (.reading (item ++ rest) r) =
      if r = 1 then some (.atEnd rest) else preparse rest (r - 1) := by
  obtain ⟨m, n, htype, -⟩ := untagged_type h rest
  obtain ⟨⟨p, hitems⟩, -⟩ := id h
  obtain ⟨steps, hle, hskip⟩ := hitems.skip
  have hfuel : ∃ fuel, (item ++ rest).length + 1 = steps + fuel :=
    Nat.exists_eq_add_of_le (by rw [List.length_append]; omega)
  obtain ⟨fuel, hfuel⟩ := hfuel
  have hrest : Cbor.skipItems kUnknownCount ((item ++ rest).length + 1) 1 (item ++ rest) = some rest := by
    rw [hfuel, ← Nat.add_zero 1, hskip, Cbor.skipItems_zero]
  rw [advanceOnce_other (untagged_not_tag h rest r)]
  have hstep : stepOver (.reading (item ++ rest) r) =
      if r = 1 then some (.atEnd rest) else preparse rest (r - 1) := by
    simp only [stepOver, CborValue.ptr_reading, hrest, CborValue.remaining_reading]
    rfl
  simp [hr, htype, hstep]

theorem advanceOnce_oversized {bound : ℕ} {item : Bytes} (h : Cbor.Untagged bound item)
    (hover : ¬ Untagged item) (rest : Bytes) (r : ℕ) : advanceOnce (.reading (item ++ rest) r) = none := by
  obtain ⟨⟨p, hitems⟩, hhead⟩ := id h
  obtain ⟨hwithin, -⟩ | hstuck := @Items.passed_or_stuck _ kUnknownCount _ _ _ hitems
  · exact absurd ⟨hwithin, hhead⟩ hover
  · have hnone := hstuck ((item ++ rest).length + 1) 0 rest
    rw [advanceOnce_other (untagged_not_tag h rest r)]
    have hstep : stepOver (.reading (item ++ rest) r) = none := by
      simp only [stepOver, CborValue.ptr_reading, show _ = none from hnone]
      rfl
    simp [hstep]

theorem skipTags_other {v : CborValue} (h : ¬ v.isTag) (fuel : ℕ) : skipTags (fuel + 1) v = some v := by
  rw [skipTags]
  obtain ⟨ptr, r, _ | ⟨m, n⟩⟩ := v
  · rfl
  · cases m <;> first | exact absurd ⟨n, rfl⟩ h | rfl

theorem skipTags_chain {bound : ℕ} {item : Bytes} (h : Cbor.Untagged bound item) (chain : List Argument) (rest : Bytes) {r : ℕ}
    (hr : r ≠ 0) {fuel : ℕ} (hfuel : chain.length < fuel) :
    skipTags fuel (.reading (Cbor.tags chain ++ (item ++ rest)) r) = some (.reading (item ++ rest) r) := by
  induction chain generalizing fuel with
  | nil =>
    obtain ⟨fuel, rfl⟩ := Nat.exists_eq_succ_of_ne_zero (Nat.ne_of_gt hfuel)
    exact skipTags_other (untagged_not_tag h rest r) fuel
  | cons a chain ih =>
    obtain ⟨fuel, rfl⟩ := Nat.exists_eq_succ_of_ne_zero (Nat.ne_of_gt (Nat.zero_lt_of_lt hfuel))
    have hnext : preparse (Cbor.tags chain ++ (item ++ rest)) r =
        some (.reading (Cbor.tags chain ++ (item ++ rest)) r) := by
      cases chain with
      | nil =>
        obtain ⟨-, m, a', payload, rfl, -⟩ := h
        rw [Cbor.tags, List.flatMap_nil, List.nil_append, List.append_assoc]
        exact preparse_head m a' (payload ++ rest) r
      | cons a' chain =>
        rw [Cbor.tags, List.flatMap_cons, List.append_assoc]
        exact preparse_head .tag a' _ r
    have htype := peek_head .tag a (Cbor.tags chain ++ (item ++ rest)) (by simp)
    have hcons : Cbor.tags (a :: chain) ++ (item ++ rest) =
        Cbor.head .tag a ++ (Cbor.tags chain ++ (item ++ rest)) := by
      rw [Cbor.tags, List.flatMap_cons, List.append_assoc, ← Cbor.tags]
    rw [hcons, skipTags, CborValue.type_reading, htype]
    simp only [advanceOnce_tag a hr, hnext, Option.bind_some]
    exact ih (Nat.lt_of_succ_lt_succ hfuel)

theorem skipTags_counts {fuel : ℕ} {v w : CborValue} (h : skipTags fuel v = some w) :
    w.remaining = v.remaining ∧ ¬ w.isTag := by
  induction fuel generalizing v with
  | zero => simp [skipTags] at h
  | succ fuel ih =>
    by_cases htag : v.isTag
    · obtain ⟨n, hn⟩ := htag
      rw [skipTags, hn, Option.bind_eq_some_iff] at h
      obtain ⟨u, hu, hw⟩ := h
      have hcount : u.remaining = v.remaining := by
        simp only [advanceOnce, hn] at hu
        split_ifs at hu
        obtain ⟨⟨_, _, rest⟩, -, hpre⟩ := Option.bind_eq_some_iff.mp hu
        rw [preparse_reading hpre]
        rfl
      rw [← hcount]
      exact ih hw
    · rw [skipTags_other htag, Option.some.injEq] at h
      exact h ▸ ⟨rfl, htag⟩

theorem advanceOnce_past_end (v : CborValue) (hr : v.remaining = 0) : advanceOnce v = none := by
  simp [advanceOnce, hr]

theorem advanceOnce_starts (a : Argument) (rest : Bytes) (r : ℕ) (hr : r ≠ 0) (h : Starts rest) :
    advanceOnce (.reading (Cbor.head .tag a ++ rest) r) = some (.reading rest r) := by
  rw [advanceOnce_tag a hr, preparse_starts h]

theorem advanceOnce_last (item rest : Bytes) (h : Untagged item) :
    advanceOnce (.reading (item ++ rest) 1) = some (.atEnd rest) := by
  rw [advanceOnce_untagged h rest Nat.one_ne_zero, if_pos rfl]

theorem advanceOnce_next (item rest : Bytes) (r : ℕ) (h : Untagged item) (hrest : Starts rest) (hr : r ≠ 0)
    (_ : r + 1 < kUnknownCount) : advanceOnce (.reading (item ++ rest) (r + 1)) = some (.reading rest r) := by
  rw [advanceOnce_untagged h rest (Nat.succ_ne_zero r), if_neg (by omega)]
  exact preparse_starts hrest r

theorem advanceOnce_counts (v w : CborValue) (h : advanceOnce v = some w) (htag : ¬ v.isTag)
    (_ : v.remaining < kUnknownCount) : w.remaining < v.remaining := by
  rw [advanceOnce_other htag] at h
  split_ifs at h with hr
  have hpos : v.remaining ≠ 0 := fun h0 => hr (.inl h0)
  obtain ⟨rest, -, hw⟩ := Option.bind_eq_some_iff.mp h
  split_ifs at hw
  · rw [← Option.some.inj hw]
    exact Nat.pos_of_ne_zero hpos
  · rw [preparse_reading hw]
    exact Nat.sub_lt (Nat.pos_of_ne_zero hpos) Nat.one_pos

theorem skipTags_past_end (v : CborValue) (htag : v.isTag) (hr : v.remaining = 0) :
    skipTags (v.ptr.length + 1) v = none := by
  obtain ⟨n, hn⟩ := htag
  simp [skipTags, hn, advanceOnce, hr]

theorem length_le_tags (chain : List Argument) : chain.length ≤ (Cbor.tags chain).length := by
  induction chain with
  | nil => rfl
  | cons a chain ih =>
    rw [Cbor.tags, List.flatMap_cons, List.length_append, List.length_cons, Cbor.head, List.length_cons]
    rw [Cbor.tags] at ih
    omega

theorem skipTags_item (bound : ℕ) (chain : List Argument) (item rest : Bytes) (r : ℕ) (hr : r ≠ 0)
    (h : Cbor.Untagged bound item) :
    skipTags ((CborValue.reading (Cbor.tags chain ++ (item ++ rest)) r).ptr.length + 1)
      (.reading (Cbor.tags chain ++ (item ++ rest)) r) = some (.reading (item ++ rest) r) := by
  refine skipTags_chain h chain rest hr ?_
  rw [CborValue.ptr_reading, List.length_append]
  exact Nat.lt_succ_of_le (Nat.le_trans (length_le_tags chain) (Nat.le_add_right _ _))

theorem enter_empty (m : Major) (a : Argument) (rest : Bytes) (r : ℕ) (hm : m = .array ∨ m = .map)
    (ha : a.value = 0) : enter (.reading (Cbor.head m a ++ rest) r) = some (.atEnd rest) := by
  have hcount : containerCount m a.value = 0 := by simp [containerCount, ha]
  have htype := peek_head m a rest (by rintro rfl; simp at hm)
  simp [enter, htype, Cbor.readHead_head, hcount, kUnknownCount]

theorem enter_items (m : Major) (a : Argument) (rest : Bytes) (r : ℕ) (hm : m = .array ∨ m = .map)
    (ha : a.value ≠ 0) (hcount : containerCount m a.value < kUnknownCount) (hrest : Starts rest) :
    enter (.reading (Cbor.head m a ++ rest) r) = some (.reading rest (containerCount m a.value)) := by
  have hpos : containerCount m a.value ≠ 0 := by
    unfold containerCount
    split_ifs <;> omega
  have htype := peek_head m a rest (by rintro rfl; simp at hm)
  simp [enter, htype, Cbor.readHead_head, hpos, Nat.not_le.mpr hcount, preparse_starts hrest]

theorem enter_limit (v w : CborValue) (m : Major) (n : ℕ) (h : enter v = some w)
    (htype : v.type = some (m, some n)) : containerCount m n < kUnknownCount := by
  rw [enter, htype] at h
  simp only at h
  by_contra hle
  rw [if_pos (Nat.not_lt.mp hle)] at h
  exact absurd h (by simp)

theorem enter_counts (v w : CborValue) (h : enter v = some w) : w.remaining ≤ kUnknownCount := by
  unfold enter at h
  split at h
  · next m n _ =>
    split_ifs at h with hle
    all_goals obtain ⟨⟨_, _, rest⟩, -, h⟩ := Option.bind_eq_some_iff.mp h
    · rw [← Option.some.inj h]
      exact Nat.zero_le _
    · rw [preparse_reading h]
      exact Nat.le_of_lt (Nat.not_le.mp hle)
  · cases h

theorem length_known (v : CborValue) (n : ℕ) (h : v.type = some (.array, some n)) : length v = some n := by
  rw [length, h]

theorem length_unknown (v : CborValue) (h : v.type = some (.array, none)) : length v = none := by
  rw [length, h]

theorem copy_data (m : Major) (a : Argument) (data rest : Bytes) (hm : m = .bytes ∨ m = .text)
    (hdata : data.length = a.value) : copy (.reading (Cbor.head m a ++ (data ++ rest)) 1) = some data := by
  have htype := peek_head m a (data ++ rest) (by rintro rfl; simp at hm)
  have hlength : ¬ (data ++ rest).length < a.value := by
    rw [List.length_append]
    omega
  simp only [copy, CborValue.type_reading, htype, CborValue.ptr_reading, Cbor.readHead_head,
    Option.bind_eq_bind, Option.bind_some, if_neg hlength, List.take_left' hdata]

theorem copy_length (v : CborValue) (m : Major) (n : ℕ) (data : Bytes) (h : copy v = some data)
    (htype : v.type = some (m, some n)) : data.length = n := by
  rw [copy, htype] at h
  obtain ⟨⟨_, _, rest⟩, -, h⟩ := Option.bind_eq_some_iff.mp h
  simp only at h
  split_ifs at h with hlength
  rw [← Option.some.inj h, List.length_take, Nat.min_eq_left (Nat.not_lt.mp hlength)]

def reference : TinyCbor where
  parserInit ptr := preparse ptr 1
  advance := advanceOnce
  skipTag v := skipTags (v.ptr.length + 1) v
  enterContainer := enter
  arrayLength := length
  copyString := copy
  parserInit_nil := rfl
  parserInit_starts _ h := preparse_starts h 1
  parserInit_reading _ _ h := preparse_reading h
  advance_past_end := advanceOnce_past_end
  advance_tag := advanceOnce_starts
  advance_last := advanceOnce_last
  advance_next := advanceOnce_next
  advance_oversized _ _ rest r h hover := advanceOnce_oversized h hover rest r
  advance_counts := advanceOnce_counts
  skipTag_past_end := skipTags_past_end
  skipTag_chain := skipTags_item
  skipTag_other v h := skipTags_other h v.ptr.length
  skipTag_counts _ _ h := skipTags_counts h
  enterContainer_empty := enter_empty
  enterContainer_items := enter_items
  enterContainer_limit := enter_limit
  enterContainer_counts := enter_counts
  arrayLength_known := length_known
  arrayLength_unknown := length_unknown
  copyString_copy := copy_data
  copyString_length := copy_length

end TinyCbor
end IpfsLite.Codec
