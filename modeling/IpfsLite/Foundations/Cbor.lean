import IpfsLite.Foundations.Varint

/-! # CBOR data items

The definite-length part of RFC 7049: a head is an initial byte, which holds the major type and five
bits of additional information, and an argument of up to eight bytes. Nothing here names a particular
encoder or decoder. -/
namespace IpfsLite.Cbor
set_option autoImplicit false

inductive Major where
  | unsigned
  | negative
  | bytes
  | text
  | array
  | map
  | tag
  | simple
  deriving DecidableEq, Repr

def Major.code : Major → ℕ
  | .unsigned => 0
  | .negative => 1
  | .bytes => 2
  | .text => 3
  | .array => 4
  | .map => 5
  | .tag => 6
  | .simple => 7

/-! ## Big-endian numbers -/

def bigEndian : ℕ → ℕ → Bytes
  | 0, _ => []
  | k + 1, n => UInt8.ofNat (n / 256 ^ k) :: bigEndian k n

def ofBigEndian (bytes : Bytes) : ℕ := bytes.foldl (fun n b => n * 256 + b.toNat) 0

@[simp] theorem length_bigEndian (k n : ℕ) : (bigEndian k n).length = k := by
  induction k with
  | zero => rfl
  | succ k ih => rw [bigEndian, List.length_cons, ih]

theorem mod_pow_succ (n k : ℕ) :
    n % 256 ^ (k + 1) = n / 256 ^ k % 256 * 256 ^ k + n % 256 ^ k := by
  rw [Nat.pow_succ, Nat.mod_mul]
  ring

/-- The bytes carry the number modulo their range. -/
theorem foldl_bigEndian (k n acc : ℕ) :
    (bigEndian k n).foldl (fun n b => n * 256 + b.toNat) acc = acc * 256 ^ k + n % 256 ^ k := by
  induction k generalizing acc with
  | zero => simp [bigEndian, Nat.mod_one]
  | succ k ih =>
    rw [bigEndian, List.foldl_cons, ih, mod_pow_succ, UInt8.toNat_ofNat']
    ring

theorem ofBigEndian_bigEndian {k n : ℕ} (h : n < 256 ^ k) : ofBigEndian (bigEndian k n) = n := by
  rw [ofBigEndian, foldl_bigEndian, Nat.mod_eq_of_lt h]
  omega

theorem foldl_ofBigEndian (bytes : Bytes) (acc : ℕ) :
    bytes.foldl (fun n b => n * 256 + b.toNat) acc = acc * 256 ^ bytes.length + ofBigEndian bytes := by
  induction bytes generalizing acc with
  | nil => simp [ofBigEndian]
  | cons b bytes ih =>
    rw [ofBigEndian, List.foldl_cons, List.foldl_cons, ih, ih (0 * 256 + b.toNat), List.length_cons]
    ring

theorem ofBigEndian_cons (b : UInt8) (bytes : Bytes) :
    ofBigEndian (b :: bytes) = b.toNat * 256 ^ bytes.length + ofBigEndian bytes := by
  rw [ofBigEndian, List.foldl_cons, foldl_ofBigEndian, Nat.zero_mul, Nat.zero_add]

theorem ofBigEndian_lt (bytes : Bytes) : ofBigEndian bytes < 256 ^ bytes.length := by
  induction bytes with
  | nil => exact Nat.one_pos
  | cons b bytes ih =>
    have hb : b.toNat < 256 := b.toNat_lt
    have hle : (b.toNat + 1) * 256 ^ bytes.length ≤ 256 * 256 ^ bytes.length := Nat.mul_le_mul_right _ hb
    rw [ofBigEndian_cons, List.length_cons, Nat.pow_succ]
    rw [Nat.add_mul, Nat.one_mul] at hle
    omega

/-- The bytes in front of the last `k` ones do not matter. -/
theorem bigEndian_add (k m n : ℕ) : bigEndian k (m * 256 ^ k + n) = bigEndian k n := by
  induction k generalizing m with
  | zero => rfl
  | succ k ih =>
    have hpos : 0 < 256 ^ k := Nat.pow_pos (by decide)
    have hsplit : m * 256 ^ (k + 1) + n = m * 256 * 256 ^ k + n := by ring
    have hdigit : UInt8.ofNat (m * 256 + n / 256 ^ k) = UInt8.ofNat (n / 256 ^ k) := by
      refine UInt8.toNat_inj.mp ?_
      rw [UInt8.toNat_ofNat', UInt8.toNat_ofNat']
      omega
    rw [bigEndian, bigEndian, hsplit, ih, Nat.mul_comm (m * 256) (256 ^ k), Nat.mul_add_div hpos, hdigit]

theorem bigEndian_ofBigEndian (bytes : Bytes) : bigEndian bytes.length (ofBigEndian bytes) = bytes := by
  induction bytes with
  | nil => rfl
  | cons b bytes ih =>
    have hpos : 0 < 256 ^ bytes.length := Nat.pow_pos (by decide)
    have hfirst : (b.toNat * 256 ^ bytes.length + ofBigEndian bytes) / 256 ^ bytes.length = b.toNat := by
      rw [Nat.mul_comm, Nat.mul_add_div hpos, Nat.div_eq_of_lt (ofBigEndian_lt bytes), Nat.add_zero]
    rw [List.length_cons, bigEndian, ofBigEndian_cons, hfirst, bigEndian_add, ih, UInt8.ofNat_toNat]

/-! ## Heads -/

/-- How many bytes the argument takes; a small one is in the initial byte. -/
inductive Width where
  | inline
  | one
  | two
  | four
  | eight
  deriving DecidableEq, Repr

namespace Width

def size : Width → ℕ
  | .inline => 0
  | .one => 1
  | .two => 2
  | .four => 4
  | .eight => 8

def limit : Width → ℕ
  | .inline => 24
  | w => 256 ^ w.size

end Width

/-- The argument of a head, not necessarily in its shortest form. -/
structure Argument where
  width : Width
  value : ℕ
  fits : value < width.limit

namespace Argument

/-- The additional information. -/
def info (a : Argument) : ℕ :=
  match a.width with
  | .inline => a.value
  | .one => 24
  | .two => 25
  | .four => 26
  | .eight => 27

theorem info_lt (a : Argument) : a.info < 28 := by
  obtain ⟨w, v, hv⟩ := a
  cases w with
  | inline => exact Nat.lt_of_lt_of_le hv (by decide)
  | one | two | four | eight => simp [info]

theorem value_lt (a : Argument) : a.value < 2 ^ 64 := by
  refine Nat.lt_of_lt_of_le a.fits ?_
  cases a.width <;> decide

/-- The shortest form. -/
def shortest (n : ℕ) (h : n < 2 ^ 64) : Argument :=
  if h₀ : n < 24 then ⟨.inline, n, h₀⟩
  else if h₁ : n < 256 ^ 1 then ⟨.one, n, h₁⟩
  else if h₂ : n < 256 ^ 2 then ⟨.two, n, h₂⟩
  else if h₄ : n < 256 ^ 4 then ⟨.four, n, h₄⟩
  else ⟨.eight, n, h⟩

@[simp] theorem value_shortest (n : ℕ) (h : n < 2 ^ 64) : (shortest n h).value = n := by
  unfold shortest
  split_ifs <;> rfl

end Argument

def head (m : Major) (a : Argument) : Bytes :=
  UInt8.ofNat (m.code * 32 + a.info) :: bigEndian a.width.size a.value

/-! ## Reading a head -/

def Major.ofCode : ℕ → Major
  | 0 => .unsigned
  | 1 => .negative
  | 2 => .bytes
  | 3 => .text
  | 4 => .array
  | 5 => .map
  | 6 => .tag
  | _ => .simple

def Width.ofInfo : ℕ → Option Width
  | 24 => some .one
  | 25 => some .two
  | 26 => some .four
  | 27 => some .eight
  | info => if info < 24 then some .inline else none

def readHead : Bytes → Option (Major × ℕ × Bytes)
  | [] => none
  | b :: rest => do
    let info := b.toNat % 32
    let w ← Width.ofInfo info
    if rest.length < w.size then none
    else some (.ofCode (b.toNat / 32), if w = .inline then info else ofBigEndian (rest.take w.size),
      rest.drop w.size)

theorem Width.ofInfo_of_lt {info : ℕ} (h : info < 24) : ofInfo info = some .inline := by
  revert info
  decide

theorem Major.ofCode_code (m : Major) : ofCode m.code = m := by cases m <;> rfl

/-- What the initial byte holds. -/
theorem initial_byte (m : Major) (a : Argument) :
    (UInt8.ofNat (m.code * 32 + a.info)).toNat % 32 = a.info ∧
      Major.ofCode ((UInt8.ofNat (m.code * 32 + a.info)).toNat / 32) = m := by
  have hinfo := a.info_lt
  have hcode : m.code < 8 := by cases m <;> decide
  have hbyte : (UInt8.ofNat (m.code * 32 + a.info)).toNat = m.code * 32 + a.info :=
    UInt8.toNat_ofNat_of_lt' (by unfold UInt8.size; omega)
  have hdiv : (m.code * 32 + a.info) / 32 = m.code := by omega
  rw [hbyte, hdiv, Major.ofCode_code]
  exact ⟨by omega, rfl⟩

theorem readHead_head (m : Major) (a : Argument) (rest : Bytes) :
    readHead (head m a ++ rest) = some (m, a.value, rest) := by
  obtain ⟨hmod, hmajor⟩ := initial_byte m a
  have hwidth : Width.ofInfo a.info = some a.width := by
    obtain ⟨w, v, hv⟩ := a
    cases w with
    | inline => exact Width.ofInfo_of_lt hv
    | one | two | four | eight => rfl
  rw [head, List.cons_append, readHead, hmod, hmajor, hwidth]
  have hlength : ¬ (bigEndian a.width.size a.value ++ rest).length < a.width.size := by
    rw [List.length_append, length_bigEndian]
    omega
  simp only [Option.bind_eq_bind, Option.bind_some, if_neg hlength]
  rw [List.take_left' (length_bigEndian _ _), List.drop_left' (length_bigEndian _ _)]
  obtain ⟨w, v, hv⟩ := a
  cases w with
  | inline => rfl
  | one | two | four | eight => simp [ofBigEndian_bigEndian (k := _) (n := v) hv]

/-- Heads are prefix-free. -/
theorem head_append_inj {m m' : Major} {a a' : Argument} {b b' : Bytes}
    (h : head m a ++ b = head m' a' ++ b') : m = m' ∧ a.value = a'.value ∧ b = b' := by
  have hread := congrArg readHead h
  rw [readHead_head, readHead_head] at hread
  simpa using hread

/-! ## Data items -/

/-- So many data items, one after the other, whose containers hold fewer than `limit` items. The flag
says whether there is a simple value or a float (major type 7) among them, at any depth; a simple value
in a byte of its own is 32 at least. -/
inductive Items (limit : ℕ) : Bool → ℕ → Bytes → Prop where
  | nil : Items limit false 0 []
  | integer {m : Major} {a : Argument} {p : Bool} {n : ℕ} {rest : Bytes}
      (hm : m = .unsigned ∨ m = .negative) (hrest : Items limit p n rest) :
      Items limit p (n + 1) (head m a ++ rest)
  | string {m : Major} {a : Argument} {data : Bytes} {p : Bool} {n : ℕ} {rest : Bytes}
      (hm : m = .bytes ∨ m = .text) (hdata : data.length = a.value) (hrest : Items limit p n rest) :
      Items limit p (n + 1) (head m a ++ (data ++ rest))
  | array {a : Argument} {inner : Bytes} {p q : Bool} {n : ℕ} {rest : Bytes}
      (hcount : a.value < limit) (hinner : Items limit p a.value inner) (hrest : Items limit q n rest) :
      Items limit (p || q) (n + 1) (head .array a ++ (inner ++ rest))
  | map {a : Argument} {inner : Bytes} {p q : Bool} {n : ℕ} {rest : Bytes}
      (hcount : 2 * a.value < limit) (hinner : Items limit p (2 * a.value) inner) (hrest : Items limit q n rest) :
      Items limit (p || q) (n + 1) (head .map a ++ (inner ++ rest))
  | tag {a : Argument} {inner : Bytes} {p q : Bool} {n : ℕ} {rest : Bytes}
      (hinner : Items limit p 1 inner) (hrest : Items limit q n rest) :
      Items limit (p || q) (n + 1) (head .tag a ++ (inner ++ rest))
  | simple {a : Argument} {p : Bool} {n : ℕ} {rest : Bytes} (ha : a.width = .one → 32 ≤ a.value)
      (hrest : Items limit p n rest) : Items limit true (n + 1) (head .simple a ++ rest)

/-- Every item takes a byte at least. -/
theorem Items.le_length {limit : ℕ} {p : Bool} {n : ℕ} {bytes : Bytes} (h : Items limit p n bytes) : n ≤ bytes.length := by
  induction h with
  | nil => rfl
  | integer _ _ ih | string _ _ _ ih | array _ _ _ _ ih | map _ _ _ _ ih | tag _ _ _ ih | simple _ _ ih =>
    simp only [List.length_append, head, List.length_cons]
    omega

theorem Items.append {limit : ℕ} {p q : Bool} {n m : ℕ} {b c : Bytes} (h : Items limit p n b) (h' : Items limit q m c) :
    Items limit (p || q) (n + m) (b ++ c) := by
  induction h with
  | nil => simpa using h'
  | integer hm _ ih =>
    rw [List.append_assoc, Nat.add_right_comm]
    exact .integer hm ih
  | string hm hdata _ ih =>
    rw [List.append_assoc, List.append_assoc, Nat.add_right_comm]
    exact .string hm hdata ih
  | array hcount hinner _ _ ih =>
    rw [List.append_assoc, List.append_assoc, Nat.add_right_comm, Bool.or_assoc]
    exact .array hcount hinner ih
  | map hcount hinner _ _ ih =>
    rw [List.append_assoc, List.append_assoc, Nat.add_right_comm, Bool.or_assoc]
    exact .map hcount hinner ih
  | tag hinner _ _ ih =>
    rw [List.append_assoc, List.append_assoc, Nat.add_right_comm, Bool.or_assoc]
    exact .tag hinner ih
  | simple ha _ ih =>
    rw [List.append_assoc, Nat.add_right_comm, Bool.true_or]
    exact .simple ha ih

theorem Items.flatMap {limit : ℕ} {α : Type} {q : α → Bool} {k : ℕ} {f : α → Bytes} {l : List α}
    (h : ∀ e ∈ l, Items limit (q e) k (f e)) : Items limit (l.any q) (k * l.length) (l.flatMap f) := by
  induction l with
  | nil => exact .nil
  | cons e l ih =>
    rw [List.any_cons, List.flatMap_cons, List.length_cons, Nat.mul_succ, Nat.add_comm]
    exact (h e List.mem_cons_self).append (ih fun e' he' => h e' (List.mem_cons_of_mem e he'))

theorem Items.exists_flatMap {limit : ℕ} {α : Type} {k : ℕ} {f : α → Bytes} {l : List α}
    (h : ∀ e ∈ l, ∃ p, Items limit p k (f e)) : ∃ p, Items limit p (k * l.length) (l.flatMap f) := by
  choose! q hq using h
  exact ⟨l.any q, .flatMap hq⟩

/-! ## Skipping items -/

/-- Skips so many items; the fuel is spent on heads. -/
def skipItems (limit : ℕ) : ℕ → ℕ → Bytes → Option Bytes
  | _, 0, bytes => some bytes
  | 0, _ + 1, _ => none
  | fuel + 1, n + 1, bytes => do
    let (m, v, rest) ← readHead bytes
    match m with
    | .unsigned | .negative | .simple => skipItems limit fuel n rest
    | .bytes | .text => if rest.length < v then none else skipItems limit fuel n (rest.drop v)
    | .array => if limit ≤ v then none else skipItems limit fuel (v + n) rest
    | .map => if limit ≤ 2 * v then none else skipItems limit fuel (2 * v + n) rest
    | .tag => skipItems limit fuel (1 + n) rest

theorem skipItems_zero (limit fuel : ℕ) (bytes : Bytes) : skipItems limit fuel 0 bytes = some bytes := by
  cases fuel <;> rfl

/-- Well-formed items are skipped with no more fuel than they have bytes. -/
theorem Items.skip {limit : ℕ} {p : Bool} {n : ℕ} {bytes : Bytes} (h : Items limit p n bytes) :
    ∃ steps ≤ bytes.length, ∀ fuel k rest,
      skipItems limit (steps + fuel) (n + k) (bytes ++ rest) = skipItems limit fuel k rest := by
  -- a head takes one step, what it announces takes its own
  have hhead : ∀ {m : Major} {a : Argument} {n steps : ℕ} {tail : Bytes}, steps ≤ tail.length →
      (∀ fuel k rest, skipItems limit (1 + steps + fuel) (n + 1 + k) (head m a ++ (tail ++ rest)) =
        skipItems limit fuel k rest) →
      ∃ steps' ≤ (head m a ++ tail).length, ∀ fuel k rest,
        skipItems limit (steps' + fuel) (n + 1 + k) (head m a ++ tail ++ rest) =
          skipItems limit fuel k rest := by
    intro m a n steps tail hle hskip
    refine ⟨1 + steps, ?_, fun fuel k rest => ?_⟩
    · simp only [List.length_append, head, List.length_cons]
      omega
    · rw [List.append_assoc]
      exact hskip fuel k rest
  -- the items of a container, and those behind it
  have hopen : ∀ {m n : ℕ} {inner tail : Bytes},
      (∃ steps ≤ inner.length, ∀ fuel k rest,
        skipItems limit (steps + fuel) (m + k) (inner ++ rest) = skipItems limit fuel k rest) →
      (∃ steps ≤ tail.length, ∀ fuel k rest,
        skipItems limit (steps + fuel) (n + k) (tail ++ rest) = skipItems limit fuel k rest) →
      ∃ steps ≤ (inner ++ tail).length, ∀ fuel k rest,
        skipItems limit (steps + fuel) (m + (n + k)) (inner ++ tail ++ rest) =
          skipItems limit fuel k rest := by
    rintro m n inner tail ⟨s₁, hle₁, hinner⟩ ⟨s₂, hle₂, htail⟩
    refine ⟨s₁ + s₂, by rw [List.length_append]; omega, fun fuel k rest => ?_⟩
    rw [Nat.add_assoc, List.append_assoc, hinner, htail]
  have hfuel : ∀ steps fuel, 1 + steps + fuel = (steps + fuel) + 1 := by omega
  have hcount : ∀ n k : ℕ, n + 1 + k = (n + k) + 1 := by omega
  induction h with
  | nil => exact ⟨0, le_rfl, fun fuel k rest => by simp⟩
  | integer hm _ ih =>
    obtain ⟨steps, hle, hskip⟩ := ih
    refine hhead hle fun fuel k rest => ?_
    rw [hfuel, hcount, skipItems, readHead_head]
    obtain rfl | rfl := hm <;> exact hskip fuel k rest
  | simple _ _ ih =>
    obtain ⟨steps, hle, hskip⟩ := ih
    refine hhead hle fun fuel k rest => ?_
    rw [hfuel, hcount, skipItems, readHead_head]
    exact hskip fuel k rest
  | @string m a data _ _ tail hm hdata _ ih =>
    obtain ⟨steps, hle, hskip⟩ := ih
    refine hhead (Nat.le_trans hle (by simp)) fun fuel k rest => ?_
    have hlength : ¬ (data ++ (tail ++ rest)).length < a.value := by
      rw [List.length_append, ← hdata]
      exact Nat.not_lt.mpr (Nat.le_add_right _ _)
    rw [hfuel, hcount, skipItems, readHead_head, List.append_assoc]
    obtain rfl | rfl := hm <;>
    · simp only [Option.bind_eq_bind, Option.bind_some, if_neg hlength, List.drop_left' hdata]
      exact hskip fuel k rest
  | @array a inner _ _ _ tail hlimit _ _ ih₁ ih₂ =>
    obtain ⟨steps, hle, hskip⟩ := hopen ih₁ ih₂
    refine hhead hle fun fuel k rest => ?_
    rw [hfuel, hcount, skipItems, readHead_head]
    simp only [Option.bind_eq_bind, Option.bind_some, if_neg (Nat.not_le.mpr hlimit)]
    exact hskip fuel k rest
  | @map a inner _ _ _ tail hlimit _ _ ih₁ ih₂ =>
    obtain ⟨steps, hle, hskip⟩ := hopen ih₁ ih₂
    refine hhead hle fun fuel k rest => ?_
    rw [hfuel, hcount, skipItems, readHead_head]
    simp only [Option.bind_eq_bind, Option.bind_some, if_neg (Nat.not_le.mpr hlimit)]
    exact hskip fuel k rest
  | tag _ _ ih₁ ih₂ =>
    obtain ⟨steps, hle, hskip⟩ := hopen ih₁ ih₂
    refine hhead hle fun fuel k rest => ?_
    rw [hfuel, hcount, skipItems, readHead_head]
    exact hskip fuel k rest

/-- So many items end in one place only. -/
theorem Items.prefix_unique {limit : ℕ} {p q : Bool} {n : ℕ} {b c b' c' : Bytes}
    (h : Items limit p n b) (h' : Items limit q n b') (heq : b ++ c = b' ++ c') : b = b' ∧ c = c' := by
  obtain ⟨steps, -, hskip⟩ := h.skip
  obtain ⟨steps', -, hskip'⟩ := h'.skip
  have hc := hskip steps' 0 c
  have hc' := hskip' steps 0 c'
  rw [skipItems_zero, heq, Nat.add_comm steps] at hc
  rw [skipItems_zero, hc, Option.some.injEq] at hc'
  rw [hc'] at heq
  exact ⟨List.append_cancel_right heq, hc'⟩

/-! ### Containers that hold too much -/

/-- These items are stepped over, if the fuel lasts. -/
def Passed (limit n : ℕ) (bytes : Bytes) : Prop :=
  ∀ fuel k rest, skipItems limit fuel (n + k) (bytes ++ rest) = none ∨
    ∃ fuel', skipItems limit fuel (n + k) (bytes ++ rest) = skipItems limit fuel' k rest

/-- Nothing behind these items is reached. -/
def Stuck (limit n : ℕ) (bytes : Bytes) : Prop :=
  ∀ fuel k rest, skipItems limit fuel (n + k) (bytes ++ rest) = none

theorem Passed.append {limit m n : ℕ} {b c : Bytes} (h : Passed limit m b) (h' : Passed limit n c) :
    Passed limit (m + n) (b ++ c) := by
  intro fuel k rest
  rw [Nat.add_assoc, List.append_assoc]
  obtain hnone | ⟨fuel', heq⟩ := h fuel (n + k) (c ++ rest)
  · exact .inl hnone
  · rw [heq]
    exact h' fuel' k rest

theorem Passed.stuck {limit m n : ℕ} {b c : Bytes} (h : Passed limit m b) (h' : Stuck limit n c) :
    Stuck limit (m + n) (b ++ c) := by
  intro fuel k rest
  rw [Nat.add_assoc, List.append_assoc]
  obtain hnone | ⟨fuel', heq⟩ := h fuel (n + k) (c ++ rest)
  · exact hnone
  · rw [heq]
    exact h' fuel' k rest

theorem Stuck.append {limit m : ℕ} {b : Bytes} (h : Stuck limit m b) (n : ℕ) (c : Bytes) :
    Stuck limit (m + n) (b ++ c) := by
  intro fuel k rest
  rw [Nat.add_assoc, List.append_assoc]
  exact h fuel (n + k) (c ++ rest)

section
variable {limit n n' : ℕ} {bytes bytes' : Bytes}
  (hstep : ∀ fuel k rest, skipItems limit (fuel + 1) (n + 1 + k) (bytes ++ rest) =
    skipItems limit fuel (n' + k) (bytes' ++ rest))
include hstep

theorem Passed.step (h : Passed limit n' bytes') : Passed limit (n + 1) bytes := by
  intro fuel k rest
  cases fuel with
  | zero =>
    rw [Nat.add_right_comm]
    exact .inl rfl
  | succ fuel =>
    rw [hstep]
    exact h fuel k rest

theorem Stuck.step (h : Stuck limit n' bytes') : Stuck limit (n + 1) bytes := by
  intro fuel k rest
  cases fuel with
  | zero =>
    rw [Nat.add_right_comm]
    rfl
  | succ fuel =>
    rw [hstep]
    exact h fuel k rest

end

/-- Well-formed items are stepped over unless one of their containers holds too much. -/
theorem Items.passed_or_stuck {bound limit : ℕ} {p : Bool} {n : ℕ} {bytes : Bytes}
    (h : Items bound p n bytes) :
    (∃ q, Items limit q n bytes) ∧ Passed limit n bytes ∨ Stuck limit n bytes := by
  have hcount : ∀ n k : ℕ, n + 1 + k = (n + k) + 1 := by omega
  -- the items of a container or a tag, and those behind it
  have hopen : ∀ {m n : ℕ} {inner tail : Bytes},
      (∃ q, Items limit q m inner) ∧ Passed limit m inner ∨ Stuck limit m inner →
      (∃ q, Items limit q n tail) ∧ Passed limit n tail ∨ Stuck limit n tail →
      ((∃ q, Items limit q m inner) ∧ (∃ q, Items limit q n tail) ∧
        Passed limit (m + n) (inner ++ tail)) ∨ Stuck limit (m + n) (inner ++ tail) := by
    rintro m n inner tail (⟨hinner, hpassed⟩ | hstuck) htail
    · obtain ⟨htail, hpassed'⟩ | hstuck := htail
      · exact .inl ⟨hinner, htail, hpassed.append hpassed'⟩
      · exact .inr (hpassed.stuck hstuck)
    · exact .inr (hstuck.append n tail)
  induction h with
  | nil =>
    refine .inl ⟨⟨false, .nil⟩, fun fuel k rest => .inr ⟨fuel, ?_⟩⟩
    rw [Nat.zero_add]
    rfl
  | @integer m a _ n tail hm _ ih =>
    have hstep : ∀ fuel k rest, skipItems limit (fuel + 1) (n + 1 + k) (head m a ++ tail ++ rest) =
        skipItems limit fuel (n + k) (tail ++ rest) := by
      intro fuel k rest
      rw [hcount, List.append_assoc, skipItems, readHead_head]
      obtain rfl | rfl := hm <;> rfl
    obtain ⟨⟨q, htail⟩, hpassed⟩ | hstuck := ih
    · exact .inl ⟨⟨q, .integer hm htail⟩, hpassed.step hstep⟩
    · exact .inr (hstuck.step hstep)
  | @simple a _ n tail ha _ ih =>
    have hstep : ∀ fuel k rest, skipItems limit (fuel + 1) (n + 1 + k) (head .simple a ++ tail ++ rest) =
        skipItems limit fuel (n + k) (tail ++ rest) := by
      intro fuel k rest
      rw [hcount, List.append_assoc, skipItems, readHead_head]
      rfl
    obtain ⟨⟨q, htail⟩, hpassed⟩ | hstuck := ih
    · exact .inl ⟨⟨true, .simple ha htail⟩, hpassed.step hstep⟩
    · exact .inr (hstuck.step hstep)
  | @string m a data _ n tail hm hdata _ ih =>
    have hstep : ∀ fuel k rest,
        skipItems limit (fuel + 1) (n + 1 + k) (head m a ++ (data ++ tail) ++ rest) =
          skipItems limit fuel (n + k) (tail ++ rest) := by
      intro fuel k rest
      have hlength : ¬ (data ++ (tail ++ rest)).length < a.value := by
        rw [List.length_append, ← hdata]
        exact Nat.not_lt.mpr (Nat.le_add_right _ _)
      rw [hcount, List.append_assoc, List.append_assoc, skipItems, readHead_head]
      obtain rfl | rfl := hm <;>
        simp only [Option.bind_eq_bind, Option.bind_some, if_neg hlength, List.drop_left' hdata]
    obtain ⟨⟨q, htail⟩, hpassed⟩ | hstuck := ih
    · exact .inl ⟨⟨q, .string hm hdata htail⟩, hpassed.step hstep⟩
    · exact .inr (hstuck.step hstep)
  | @array a inner _ _ n tail _ _ _ ih₁ ih₂ =>
    by_cases hlimit : a.value < limit
    · have hstep : ∀ fuel k rest,
          skipItems limit (fuel + 1) (n + 1 + k) (head .array a ++ (inner ++ tail) ++ rest) =
            skipItems limit fuel (a.value + n + k) (inner ++ tail ++ rest) := by
        intro fuel k rest
        rw [hcount, List.append_assoc, skipItems, readHead_head, Nat.add_assoc a.value]
        simp only [Option.bind_eq_bind, Option.bind_some, if_neg (Nat.not_le.mpr hlimit)]
      obtain ⟨⟨q, hinner⟩, ⟨q', htail⟩, hpassed⟩ | hstuck := hopen ih₁ ih₂
      · exact .inl ⟨⟨_, .array hlimit hinner htail⟩, hpassed.step hstep⟩
      · exact .inr (hstuck.step hstep)
    · refine .inr fun fuel k rest => ?_
      rw [hcount, List.append_assoc]
      cases fuel with
      | zero => rfl
      | succ fuel => simp [skipItems, readHead_head, Nat.not_lt.mp hlimit]
  | @map a inner _ _ n tail _ _ _ ih₁ ih₂ =>
    by_cases hlimit : 2 * a.value < limit
    · have hstep : ∀ fuel k rest,
          skipItems limit (fuel + 1) (n + 1 + k) (head .map a ++ (inner ++ tail) ++ rest) =
            skipItems limit fuel (2 * a.value + n + k) (inner ++ tail ++ rest) := by
        intro fuel k rest
        rw [hcount, List.append_assoc, skipItems, readHead_head, Nat.add_assoc (2 * a.value)]
        simp only [Option.bind_eq_bind, Option.bind_some, if_neg (Nat.not_le.mpr hlimit)]
      obtain ⟨⟨q, hinner⟩, ⟨q', htail⟩, hpassed⟩ | hstuck := hopen ih₁ ih₂
      · exact .inl ⟨⟨_, .map hlimit hinner htail⟩, hpassed.step hstep⟩
      · exact .inr (hstuck.step hstep)
    · refine .inr fun fuel k rest => ?_
      rw [hcount, List.append_assoc]
      cases fuel with
      | zero => rfl
      | succ fuel => simp [skipItems, readHead_head, Nat.not_lt.mp hlimit]
  | @tag a inner _ _ n tail _ _ ih₁ ih₂ =>
    have hstep : ∀ fuel k rest,
        skipItems limit (fuel + 1) (n + 1 + k) (head .tag a ++ (inner ++ tail) ++ rest) =
          skipItems limit fuel (1 + n + k) (inner ++ tail ++ rest) := by
      intro fuel k rest
      rw [hcount, List.append_assoc, skipItems, readHead_head, Nat.add_assoc 1]
      rfl
    obtain ⟨⟨q, hinner⟩, ⟨q', htail⟩, hpassed⟩ | hstuck := hopen ih₁ ih₂
    · exact .inl ⟨⟨_, .tag hinner htail⟩, hpassed.step hstep⟩
    · exact .inr (hstuck.step hstep)

/-! A single item. -/

theorem Items.oneInteger {limit : ℕ} {m : Major} (a : Argument) (hm : m = .unsigned ∨ m = .negative) :
    Items limit false 1 (head m a) := by
  simpa using Items.integer (a := a) hm .nil

theorem Items.oneString {limit : ℕ} {m : Major} {a : Argument} {data : Bytes} (hm : m = .bytes ∨ m = .text)
    (hdata : data.length = a.value) : Items limit false 1 (head m a ++ data) := by
  simpa using Items.string hm hdata .nil

theorem Items.oneArray {limit : ℕ} {a : Argument} {p : Bool} {inner : Bytes} (hcount : a.value < limit)
    (h : Items limit p a.value inner) :
    Items limit p 1 (head .array a ++ inner) := by
  simpa using Items.array hcount h .nil

theorem Items.oneMap {limit : ℕ} {a : Argument} {p : Bool} {inner : Bytes} (hcount : 2 * a.value < limit)
    (h : Items limit p (2 * a.value) inner) :
    Items limit p 1 (head .map a ++ inner) := by
  simpa using Items.map hcount h .nil

theorem Items.oneTag {limit : ℕ} {a : Argument} {p : Bool} {inner : Bytes} (h : Items limit p 1 inner) :
    Items limit p 1 (head .tag a ++ inner) := by
  simpa using Items.tag h .nil

theorem Items.oneSimple {limit : ℕ} {a : Argument} (ha : a.width = .one → 32 ≤ a.value) :
    Items limit true 1 (head .simple a) := by
  simpa using Items.simple ha .nil

/-! ## Tags -/

/-- One item that is not tagged. -/
def Untagged (limit : ℕ) (bytes : Bytes) : Prop :=
  (∃ p, Items limit p 1 bytes) ∧ ∃ m a rest, bytes = head m a ++ rest ∧ m ≠ .tag

/-- Tags one behind the other, as they stand in front of an item. -/
def tags (chain : List Argument) : Bytes := chain.flatMap (head .tag)

/-- The first item is not tagged, or a tag stands in front of as many items. -/
theorem Items.uncons {limit : ℕ} {p : Bool} {n : ℕ} {bytes : Bytes} (h : Items limit p (n + 1) bytes) :
    (∃ item others, bytes = item ++ others ∧ Untagged limit item ∧ ∃ q, Items limit q n others) ∨
      ∃ a others, bytes = head .tag a ++ others ∧ ∃ q, Items limit q (n + 1) others := by
  cases h with
  | @integer m a _ _ rest hm hrest =>
    refine .inl ⟨head m a, rest, rfl, ⟨⟨_, .oneInteger a hm⟩, m, a, [], by rw [List.append_nil], ?_⟩, _, hrest⟩
    rintro rfl
    simp at hm
  | @string m a data _ _ rest hm hdata hrest =>
    refine .inl ⟨head m a ++ data, rest, by rw [List.append_assoc],
      ⟨⟨_, .oneString hm hdata⟩, m, a, data, rfl, ?_⟩, _, hrest⟩
    rintro rfl
    simp at hm
  | @array a inner _ _ _ rest hcount hinner hrest =>
    exact .inl ⟨head .array a ++ inner, rest, by rw [List.append_assoc],
      ⟨⟨_, .oneArray hcount hinner⟩, .array, a, inner, rfl, by decide⟩, _, hrest⟩
  | @map a inner _ _ _ rest hcount hinner hrest =>
    exact .inl ⟨head .map a ++ inner, rest, by rw [List.append_assoc],
      ⟨⟨_, .oneMap hcount hinner⟩, .map, a, inner, rfl, by decide⟩, _, hrest⟩
  | @tag a inner _ _ _ rest hinner hrest =>
    have hone := hinner.append hrest
    rw [Nat.add_comm] at hone
    exact .inr ⟨a, inner ++ rest, rfl, _, hone⟩
  | @simple a _ _ rest ha hrest =>
    exact .inl ⟨head .simple a, rest, rfl,
      ⟨⟨_, .oneSimple ha⟩, .simple, a, [], by rw [List.append_nil], by decide⟩, _, hrest⟩

/-- A tag counts with what it is on. -/
theorem Items.of_tag {limit : ℕ} {p : Bool} {n : ℕ} {a : Argument} {bytes : Bytes}
    (h : Items limit p (n + 1) (head .tag a ++ bytes)) : ∃ q, Items limit q (n + 1) bytes := by
  obtain ⟨item, others, heq, ⟨-, m, a', rest, rfl, hm⟩, -⟩ | ⟨a', others, heq, hothers⟩ := h.uncons
  · rw [List.append_assoc] at heq
    exact absurd (head_append_inj heq).1.symm hm
  · rw [(head_append_inj heq).2.2]
    exact hothers

theorem Items.of_tags {limit : ℕ} {p : Bool} {n : ℕ} {chain : List Argument} {bytes : Bytes}
    (h : Items limit p (n + 1) (tags chain ++ bytes)) : ∃ q, Items limit q (n + 1) bytes := by
  induction chain generalizing p with
  | nil => exact ⟨p, h⟩
  | cons a chain ih =>
    rw [tags, List.flatMap_cons, List.append_assoc, ← tags] at h
    obtain ⟨q, hq⟩ := h.of_tag
    exact ih hq

theorem Items.under_tags {limit : ℕ} {p : Bool} {bytes : Bytes} (h : Items limit p 1 bytes) (chain : List Argument) :
    Items limit p 1 (tags chain ++ bytes) := by
  induction chain with
  | nil => exact h
  | cons a chain ih =>
    rw [tags, List.flatMap_cons, List.append_assoc, ← tags]
    exact .oneTag ih

theorem Items.of_array {limit : ℕ} {p : Bool} {a : Argument} {inner : Bytes}
    (h : Items limit p 1 (head .array a ++ inner)) : a.value < limit ∧ ∃ q, Items limit q a.value inner := by
  generalize hbytes : head .array a ++ inner = bytes at h
  cases h with
  | integer hm =>
    obtain ⟨rfl, -⟩ := head_append_inj hbytes
    simp at hm
  | string hm =>
    obtain ⟨rfl, -⟩ := head_append_inj hbytes
    simp at hm
  | array hcount hinner hrest =>
    obtain ⟨-, hvalue, rfl⟩ := head_append_inj hbytes
    cases hrest
    rw [List.append_nil, hvalue]
    exact ⟨hcount, _, hinner⟩
  | map | tag | simple => exact absurd (head_append_inj hbytes).1 (by decide)

theorem Items.eq_nil {limit : ℕ} {p : Bool} {bytes : Bytes} (h : Items limit p 0 bytes) : bytes = [] := by
  cases h
  rfl

theorem Items.ne_nil {limit : ℕ} {p : Bool} {n : ℕ} {bytes : Bytes} (h : Items limit p (n + 1) bytes) :
    bytes ≠ [] := by
  rintro rfl
  exact absurd h.le_length (Nat.not_succ_le_zero n)

/-- The first item is behind all of its tags. -/
theorem Items.behind_tags {limit : ℕ} {p : Bool} {n : ℕ} {bytes : Bytes} (h : Items limit p (n + 1) bytes) :
    ∃ chain item others, bytes = tags chain ++ (item ++ others) ∧ Untagged limit item ∧
      ∃ q, Items limit q n others := by
  obtain ⟨item, others, rfl, hitem, hothers⟩ | ⟨a, rest, rfl, q, hrest⟩ := h.uncons
  · exact ⟨[], item, others, rfl, hitem, hothers⟩
  · obtain ⟨chain, item, others, rfl, hitem, hothers⟩ := hrest.behind_tags
    refine ⟨a :: chain, item, others, ?_, hitem, hothers⟩
    rw [tags, tags, List.flatMap_cons, List.append_assoc]
termination_by bytes.length
decreasing_by
  subst_vars
  simp [head]

end IpfsLite.Cbor
