import IpfsLite.Common.CborBuffering

/-! # Where the object ends

The state of the scanner says which bytes would complete the item that it reads: the rest of a string or of a
head, and the items that the containers still expect. A byte that is consumed is taken off these bytes. -/
namespace IpfsLite.Common
set_option autoImplicit false

open Cbor (Major Argument Width Items bigEndian ofBigEndian ofBigEndian_lt bigEndian_ofBigEndian)

/-- No container holds that many items: the numbers in heads have 64 bits. -/
def unlimited : ℕ := 2 ^ 65

/-- One item of definite length without simple values and floats. -/
def WellFormed (bytes : Bytes) : Prop := Items unlimited false 1 bytes

namespace CborBuffering

/-! ## What completes a state -/

/-- So many items for each of the containers, the innermost first. -/
def Nested : List ℕ → Bytes → Prop
  | [], r => r = []
  | n :: outer, r => ∃ a b, r = a ++ b ∧ Items unlimited false n a ∧ Nested outer b

/-- So many bytes of a string, and what the containers expect. -/
def Rest (nested : List ℕ) (k : ℕ) (r : Bytes) : Prop := ∃ data tail, r = data ++ tail ∧ data.length = k ∧ Nested nested tail

/-- What stands behind a head, the numbers of items being unbounded. -/
def AfterHead (nested : List ℕ) (head : Head) (r : Bytes) : Prop :=
  match head.type with
  | .unsigned | .signed => Nested (countDown nested) r
  | .bytes | .text => Rest (countDown nested) head.value r
  | .array => Nested (head.value :: countDown nested) r
  | .map => Nested (2 * head.value :: countDown nested) r
  | .tag => Nested (1 :: countDown nested) r

/-- The head with the bytes that it has been missing. -/
def Head.with (head : Head) (bytes : Bytes) : Head := ⟨head.type, head.value * 256 ^ bytes.length + ofBigEndian bytes⟩

/-- The bytes that complete the item. -/
def Missing (s : CborBuffering) (r : Bytes) : Prop :=
  match s.partialHead with
  | none => Rest s.moreNested s.moreBytes r
  | some head => ∃ bytes tail, r = bytes ++ tail ∧ bytes.length = s.moreBytes ∧
      AfterHead s.moreNested (head.with bytes) tail

/-- The head of a map of 2^63 pairs or more. -/
def Head.Huge (head : Head) : Prop := head.type = .map ∧ 2 ^ 63 ≤ head.value

theorem nested_leave (nested : List ℕ) (r : Bytes) : Nested (leave nested) r ↔ Nested nested r := by
  induction nested with
  | nil => rfl
  | cons n outer ih =>
    cases n with
    | succ n => rw [leave_succ]
    | zero =>
      rw [leave_zero, ih]
      constructor
      · intro h
        exact ⟨[], r, rfl, .nil, h⟩
      · rintro ⟨a, b, rfl, ha, hb⟩
        rwa [ha.eq_nil, List.nil_append]

theorem rest_zero (nested : List ℕ) (r : Bytes) : Rest nested 0 r ↔ Nested nested r := by
  constructor
  · rintro ⟨data, tail, rfl, hdata, htail⟩
    rwa [List.length_eq_zero_iff.mp hdata, List.nil_append]
  · intro h
    exact ⟨[], r, rfl, rfl, h⟩

theorem rest_leave (nested : List ℕ) (k : ℕ) (r : Bytes) : Rest (leave nested) k r ↔ Rest nested k r := by
  unfold Rest
  simp only [nested_leave]

theorem missing_none (nested : List ℕ) (k : ℕ) (r : Bytes) :
    Missing ⟨nested, k, none⟩ r ↔ Rest nested k r := Iff.rfl

/-- A complete head leaves the scanner where its item and those behind it are missing. -/
theorem missing_enter {nested : List ℕ} {head : Head} (h : ¬ head.Huge) (r : Bytes) :
    Missing (enter nested head []).1 r ↔ AfterHead nested head r := by
  obtain ⟨type, value⟩ := head
  unfold enter AfterHead
  cases type with
  | unsigned | signed | array | tag => rw [missing_none, rest_zero, nested_leave]
  | bytes | text =>
    simp only [List.length_nil, Nat.min_zero, Nat.sub_zero]
    rw [missing_none, rest_leave]
  | map =>
    have hsmall : 2 * value < 2 ^ 64 := by
      by_contra hle
      exact h ⟨rfl, by simp only; omega⟩
    simp only [Nat.mod_eq_of_lt hsmall]
    rw [missing_none, rest_zero, nested_leave]

/-! ## The item that is expected next -/

theorem value_unlimited (a : Argument) : a.value < unlimited ∧ 2 * a.value < unlimited := by
  have hlt := a.value_lt
  unfold unlimited
  omega

/-- An item begins with a head, and what follows it is what the head announces. -/
theorem nested_succ_iff {n : ℕ} {outer : List ℕ} {bytes : Bytes} : Nested ((n + 1) :: outer) bytes ↔
    ∃ m a k tail, bytes = Cbor.head m a ++ tail ∧ kindOf m = some k ∧
      AfterHead ((n + 1) :: outer) ⟨k, a.value⟩ tail := by
  constructor
  · rintro ⟨items, b, rfl, hitems, hb⟩
    generalize hflag : false = p at hitems
    cases hitems with
    | @integer m a _ _ rest hm hrest =>
      subst hflag
      obtain rfl | rfl := hm
      · exact ⟨.unsigned, a, .unsigned, rest ++ b, List.append_assoc .., rfl, rest, b, rfl, hrest, hb⟩
      · exact ⟨.negative, a, .signed, rest ++ b, List.append_assoc .., rfl, rest, b, rfl, hrest, hb⟩
    | @string m a data _ _ rest hm hdata hrest =>
      subst hflag
      obtain rfl | rfl := hm
      · exact ⟨.bytes, a, .bytes, data ++ (rest ++ b), by simp only [List.append_assoc], rfl, data, rest ++ b, rfl, hdata,
          rest, b, rfl, hrest, hb⟩
      · exact ⟨.text, a, .text, data ++ (rest ++ b), by simp only [List.append_assoc], rfl, data, rest ++ b, rfl, hdata,
          rest, b, rfl, hrest, hb⟩
    | @array a inner p q _ rest hcount hinner hrest =>
      obtain ⟨rfl, rfl⟩ : p = false ∧ q = false := by simpa using hflag.symm
      exact ⟨.array, a, .array, inner ++ (rest ++ b), by simp only [List.append_assoc], rfl, inner, rest ++ b, rfl, hinner,
        rest, b, rfl, hrest, hb⟩
    | @map a inner p q _ rest hcount hinner hrest =>
      obtain ⟨rfl, rfl⟩ : p = false ∧ q = false := by simpa using hflag.symm
      exact ⟨.map, a, .map, inner ++ (rest ++ b), by simp only [List.append_assoc], rfl, inner, rest ++ b, rfl, hinner,
        rest, b, rfl, hrest, hb⟩
    | @tag a inner p q _ rest hinner hrest =>
      obtain ⟨rfl, rfl⟩ : p = false ∧ q = false := by simpa using hflag.symm
      exact ⟨.tag, a, .tag, inner ++ (rest ++ b), by simp only [List.append_assoc], rfl, inner, rest ++ b, rfl, hinner,
        rest, b, rfl, hrest, hb⟩
    | simple => cases hflag
  · rintro ⟨m, a, k, tail, rfl, hk, hafter⟩
    obtain ⟨hlt, hlt₂⟩ := value_unlimited a
    cases m with
    | simple => cases hk
    | unsigned | negative =>
      obtain rfl := Option.some.inj hk
      obtain ⟨rest, b, rfl, hrest, hb⟩ := hafter
      exact ⟨_, b, (List.append_assoc ..).symm, .integer (by simp) hrest, hb⟩
    | bytes =>
      obtain rfl := Option.some.inj hk
      obtain ⟨data, _, rfl, hdata, rest, b, rfl, hrest, hb⟩ := hafter
      exact ⟨_, b, by simp only [List.append_assoc], .string (m := .bytes) (.inl rfl) hdata hrest, hb⟩
    | text =>
      obtain rfl := Option.some.inj hk
      obtain ⟨data, _, rfl, hdata, rest, b, rfl, hrest, hb⟩ := hafter
      exact ⟨_, b, by simp only [List.append_assoc], .string (m := .text) (.inr rfl) hdata hrest, hb⟩
    | array =>
      obtain rfl := Option.some.inj hk
      obtain ⟨inner, _, rfl, hinner, rest, b, rfl, hrest, hb⟩ := hafter
      exact ⟨_, b, by simp only [List.append_assoc], .array hlt hinner hrest, hb⟩
    | map =>
      obtain rfl := Option.some.inj hk
      obtain ⟨inner, _, rfl, hinner, rest, b, rfl, hrest, hb⟩ := hafter
      exact ⟨_, b, by simp only [List.append_assoc], .map hlt₂ hinner hrest, hb⟩
    | tag =>
      obtain rfl := Option.some.inj hk
      obtain ⟨inner, _, rfl, hinner, rest, b, rfl, hrest, hb⟩ := hafter
      exact ⟨_, b, by simp only [List.append_assoc], .tag (a := a) hinner hrest, hb⟩

/-! ## Heads byte by byte -/

theorem majorType_byte (m : Major) {info : ℕ} (h : info < 32) :
    Head.majorType (UInt8.ofNat (m.code * 32 + info)) =
      match kindOf m with
      | some k => .ok k
      | none => .error .invalidHeadType := by
  revert info
  cases m <;> decide

theorem additional_inline (m : Major) {info : ℕ} (h : info < 24) :
    Head.additional (UInt8.ofNat (m.code * 32 + info)) = .ok (0, info) := by
  revert info
  cases m <;> decide

theorem additional_reserved (m : Major) {info : ℕ} (h : info < 32) (hge : 28 ≤ info) :
    Head.additional (UInt8.ofNat (m.code * 32 + info)) = .error .invalidHeadValue := by
  obtain rfl | rfl | rfl | rfl : info = 28 ∨ info = 29 ∨ info = 30 ∨ info = 31 := by omega
  all_goals cases m <;> decide

theorem byte_split (b : UInt8) : ∃ m : Major, ∃ info < 32, b = UInt8.ofNat (m.code * 32 + info) := by
  have hcode : ∀ c < 8, (Major.ofCode c).code = c := by decide
  have hlt := b.toNat_lt
  refine ⟨.ofCode (b.toNat / 32), b.toNat % 32, Nat.mod_lt _ (by decide), ?_⟩
  rw [hcode _ (by omega), Nat.div_add_mod', UInt8.ofNat_toNat]

/-- The first byte of a head, and the bytes that are missing after it. -/
theorem first_head {m : Major} {k : Kind} (hk : kindOf m = some k) (a : Argument) :
    Head.first (UInt8.ofNat (m.code * 32 + a.info)) =
      .ok (a.width.size, ⟨k, if a.width = .inline then a.value else 0⟩) := by
  rw [Head.first, majorType_head m a.info_lt, additional_head, hk]
  rfl

/-- A first byte that is accepted stands for the heads that begin with it. -/
theorem first_ok {b : UInt8} {more : ℕ} {head : Head} (h : Head.first b = .ok (more, head)) :
    (head.value + 1) * 256 ^ more ≤ 2 ^ 64 ∧ (more = 0 → head.value < 24) ∧
      ∃ m, kindOf m = some head.type ∧ ∀ bytes : Bytes, bytes.length = more →
        ∃ a : Argument, Cbor.head m a = b :: bytes ∧ a.value = (head.with bytes).value := by
  obtain ⟨m, info, hinfo, rfl⟩ := byte_split b
  rw [Head.first, majorType_byte m hinfo] at h
  cases hk : kindOf m with
  | none =>
    rw [hk] at h
    cases h
  | some k =>
    rw [hk] at h
    -- a head with the value in so many bytes behind the first one
    have hwide : ∀ w : Width, w.limit = 256 ^ w.size →
        (∀ v hv, (⟨w, v, hv⟩ : Argument).info = info) → more = w.size → head = ⟨k, 0⟩ →
        (head.value + 1) * 256 ^ more ≤ 2 ^ 64 ∧ (more = 0 → head.value < 24) ∧
          ∃ m', kindOf m' = some head.type ∧ ∀ bytes : Bytes, bytes.length = more →
            ∃ a : Argument, Cbor.head m' a = UInt8.ofNat (m.code * 32 + info) :: bytes ∧
              a.value = (head.with bytes).value := by
      rintro w hlimit hinfo rfl rfl
      have hsize : 1 * 256 ^ w.size ≤ 2 ^ 64 := by
        cases w <;> decide
      refine ⟨hsize, fun _ => by simp, m, hk, fun bytes hbytes => ?_⟩
      have hlt := ofBigEndian_lt bytes
      rw [hbytes, ← hlimit] at hlt
      refine ⟨⟨w, ofBigEndian bytes, hlt⟩, ?_, ?_⟩
      · rw [Cbor.head, hinfo, ← hbytes, bigEndian_ofBigEndian]
      · simp [Head.with]
    by_cases hinline : info < 24
    · rw [additional_inline m hinline] at h
      obtain ⟨rfl, rfl⟩ := Prod.mk.inj (Except.ok.inj h)
      refine ⟨by simp only; omega, fun _ => hinline, m, hk, fun bytes hbytes => ?_⟩
      obtain rfl := List.length_eq_zero_iff.mp hbytes
      exact ⟨⟨.inline, info, hinline⟩, rfl, by simp [Head.with, ofBigEndian]⟩
    · by_cases hreserved : 28 ≤ info
      · rw [additional_reserved m hinfo hreserved] at h
        cases h
      · have hadditional : ∀ a : Argument, a.info = info → a.width ≠ .inline → more = a.width.size ∧ head = ⟨k, 0⟩ := by
          intro a ha hw
          rw [← ha, additional_head, if_neg hw] at h
          obtain ⟨hm, hh⟩ := Prod.mk.inj (Except.ok.inj h)
          exact ⟨hm.symm, hh.symm⟩
        obtain rfl | rfl | rfl | rfl : info = 24 ∨ info = 25 ∨ info = 26 ∨ info = 27 := by omega
        · obtain ⟨hm, hh⟩ := hadditional ⟨.one, 0, by decide⟩ rfl (by decide)
          exact hwide .one rfl (fun _ _ => rfl) hm hh
        · obtain ⟨hm, hh⟩ := hadditional ⟨.two, 0, by decide⟩ rfl (by decide)
          exact hwide .two rfl (fun _ _ => rfl) hm hh
        · obtain ⟨hm, hh⟩ := hadditional ⟨.four, 0, by decide⟩ rfl (by decide)
          exact hwide .four rfl (fun _ _ => rfl) hm hh
        · obtain ⟨hm, hh⟩ := hadditional ⟨.eight, 0, by decide⟩ rfl (by decide)
          exact hwide .eight rfl (fun _ _ => rfl) hm hh

/-! ## A byte is taken off what is missing -/

theorem with_nil (head : Head) : head.with [] = head := by
  simp [Head.with, ofBigEndian]

theorem with_cons {head : Head} {b : UInt8} {bytes : Bytes}
    (h : (head.value + 1) * 256 ^ (bytes.length + 1) ≤ 2 ^ 64) : head.with (b :: bytes) = (head.next b).with bytes := by
  have hb : b.toNat < 256 := b.toNat_lt
  have hone : 1 ≤ 256 ^ bytes.length := Nat.pow_pos (by decide)
  have hle : (head.value + 1) * 256 ≤ (head.value + 1) * 256 ^ (bytes.length + 1) := by
    rw [Nat.pow_succ]
    exact Nat.mul_le_mul_left _ (Nat.le_mul_of_pos_left 256 hone)
  have hsmall : (head.value * 256 + b.toNat) % 2 ^ 64 = head.value * 256 + b.toNat := Nat.mod_eq_of_lt (by omega)
  rw [Head.with, Head.with, Head.next, hsmall, Cbor.ofBigEndian_cons, List.length_cons]
  congr 1
  ring

theorem next_small {head : Head} {b : UInt8} {k : ℕ} (h : (head.value + 1) * 256 ^ (k + 1) ≤ 2 ^ 64) :
    ((head.next b).value + 1) * 256 ^ k ≤ 2 ^ 64 := by
  have hb : b.toNat < 256 := b.toNat_lt
  have hle : (head.next b).value ≤ head.value * 256 + b.toNat := Nat.mod_le _ _
  calc ((head.next b).value + 1) * 256 ^ k ≤ (head.value * 256 + 256) * 256 ^ k :=
        Nat.mul_le_mul_right _ (by omega)
    _ = (head.value + 1) * 256 ^ (k + 1) := by ring
    _ ≤ 2 ^ 64 := h

/-- What `byte` keeps: the innermost container expects an item, and a partial head has room for its bytes. -/
structure Regular (s : CborBuffering) : Prop where
  sound : Sound s
  top : ∀ n outer, s.moreNested = n :: outer → n ≠ 0
  small : ∀ head, s.partialHead = some head → (head.value + 1) * 256 ^ s.moreBytes ≤ 2 ^ 64

theorem regular_reset : Regular init.reset := by
  refine ⟨init_sound.reset, fun n outer h => ?_, nofun⟩
  obtain ⟨rfl, -⟩ := List.cons.inj h
  exact Nat.one_ne_zero

theorem leave_top {nested outer : List ℕ} {n : ℕ} (h : leave nested = n :: outer) : n ≠ 0 := by
  induction nested with
  | nil => cases h
  | cons m nested ih =>
    cases m with
    | zero => exact ih h
    | succ m =>
      rw [leave_succ] at h
      obtain ⟨rfl, -⟩ := List.cons.inj h
      exact Nat.succ_ne_zero m

theorem regular_enter (nested : List ℕ) (head : Head) : Regular (enter nested head []).1 := by
  refine ⟨enter_sound nested head [], fun n outer h => ?_, fun head' h => ?_⟩
  · unfold enter at h
    cases hk : head.type <;> rw [hk] at h <;> exact leave_top h
  · rw [enter_partialHead] at h
    cases h

/-- The byte completes the head of a huge map. -/
def Overflows (s : CborBuffering) (b : UInt8) : Prop :=
  ∃ head, s.partialHead = some head ∧ s.moreBytes = 1 ∧ (head.next b).Huge

theorem missing_payload (nested : List ℕ) (k : ℕ) (b : UInt8) (r : Bytes) :
    Missing ⟨nested, k + 1, none⟩ (b :: r) ↔ Missing ⟨nested, k, none⟩ r := by
  constructor
  · rintro ⟨data, tail, hr, hdata, htail⟩
    cases data with
    | nil => cases hdata
    | cons c data =>
      obtain ⟨rfl, rfl⟩ := List.cons.inj hr
      exact ⟨data, tail, rfl, Nat.succ.inj hdata, htail⟩
  · rintro ⟨data, tail, rfl, hdata, htail⟩
    exact ⟨b :: data, tail, rfl, by rw [List.length_cons, hdata], htail⟩

theorem missing_partial {nested : List ℕ} {k : ℕ} {head : Head} (h : (head.value + 1) * 256 ^ (k + 1) ≤ 2 ^ 64)
    (b : UInt8) (r : Bytes) : Missing ⟨nested, k + 1, some head⟩ (b :: r) ↔
      ∃ bytes tail, r = bytes ++ tail ∧ bytes.length = k ∧ AfterHead nested ((head.next b).with bytes) tail := by
  constructor
  · rintro ⟨bytes, tail, hr, hbytes, htail⟩
    cases bytes with
    | nil => cases hbytes
    | cons c bytes =>
      obtain ⟨rfl, rfl⟩ := List.cons.inj hr
      have hlength : bytes.length = k := Nat.succ.inj hbytes
      rw [← hlength] at h
      rw [with_cons h] at htail
      exact ⟨bytes, tail, rfl, hlength, htail⟩
  · rintro ⟨bytes, tail, rfl, hbytes, htail⟩
    rw [← hbytes] at h
    rw [← with_cons h] at htail
    exact ⟨b :: bytes, tail, rfl, by rw [List.length_cons, hbytes], htail⟩

/-- The first byte of an item begins a head. -/
theorem missing_first {n : ℕ} {outer : List ℕ} (b : UInt8) (r : Bytes) :
    Missing ⟨(n + 1) :: outer, 0, none⟩ (b :: r) ↔ ∃ more head, Head.first b = .ok (more, head) ∧
      ∃ bytes tail, r = bytes ++ tail ∧ bytes.length = more ∧ AfterHead ((n + 1) :: outer) (head.with bytes) tail := by
  rw [missing_none, rest_zero, nested_succ_iff]
  constructor
  · rintro ⟨m, a, k, tail, hbytes, hk, hafter⟩
    rw [Cbor.head, List.cons_append] at hbytes
    obtain ⟨rfl, rfl⟩ := List.cons.inj hbytes
    refine ⟨_, _, first_head hk a, _, tail, rfl, Cbor.length_bigEndian .., ?_⟩
    have hvalue : (⟨k, if a.width = .inline then a.value else 0⟩ : Head).with (bigEndian a.width.size a.value) =
        ⟨k, a.value⟩ := by
      obtain ⟨w, v, hv⟩ := a
      cases w with
      | inline => exact with_nil ⟨k, v⟩
      | one | two | four | eight =>
        simp [Head.with, Cbor.ofBigEndian_bigEndian (k := _) (n := v) hv]
    rw [hvalue]
    exact hafter
  · rintro ⟨more, head, hfirst, bytes, tail, rfl, hlength, hafter⟩
    obtain ⟨-, -, m, hk, hbytes⟩ := first_ok hfirst
    obtain ⟨a, ha, hvalue⟩ := hbytes bytes hlength
    refine ⟨m, a, head.type, tail, ?_, hk, ?_⟩
    · rw [ha]
      rfl
    · rw [hvalue]
      exact hafter

/-- A byte that is refused begins no item. -/
theorem missing_refused {s : CborBuffering} {b : UInt8} {e : Error} (hs : Regular s) (hdone : ¬ s.done = true)
    (hb : s.byte b = .error e) (r : Bytes) : ¬ Missing s (b :: r) := by
  obtain ⟨nested, more, part⟩ := s
  cases part with
  | some head =>
    rw [byte] at hb
    split_ifs at hb
  | none =>
    by_cases hmore : more = 0
    · subst hmore
      cases nested with
      | nil => exact absurd ((done_iff _).mpr ⟨rfl, rfl⟩) hdone
      | cons n outer =>
        obtain ⟨n, rfl⟩ := Nat.exists_eq_succ_of_ne_zero (hs.top n outer rfl)
        rw [missing_first]
        rintro ⟨more, head, hfirst, -⟩
        simp only [byte, ne_eq, not_true, if_false, hfirst, bind, Except.bind] at hb
        split_ifs at hb
    · simp only [byte, ne_eq, hmore, not_false_eq_true, if_true] at hb
      cases hb

/-- **One byte.** What was missing with the byte in front is missing after it. -/
theorem missing_step {s s' : CborBuffering} {b : UInt8} (hs : Regular s) (hdone : ¬ s.done = true)
    (hb : s.byte b = .ok s') (hsmall : ¬ s.Overflows b) :
    Regular s' ∧ ∀ r, Missing s (b :: r) ↔ Missing s' r := by
  obtain ⟨nested, more, part⟩ := s
  cases part with
  | some head =>
    obtain ⟨k, rfl⟩ := Nat.exists_eq_succ_of_ne_zero (hs.sound.missing (Option.some_ne_none head)).1
    have hroom := hs.small head rfl
    cases k with
    | zero =>
      have hbyte : (⟨nested, 1, some head⟩ : CborBuffering).byte b = .ok (enter nested (head.next b) []).1 := by
        simp [byte]
      obtain rfl := Except.ok.inj (hbyte.symm.trans hb)
      refine ⟨regular_enter _ _, fun r => ?_⟩
      rw [missing_enter fun hhuge => hsmall ⟨head, rfl, rfl, hhuge⟩, missing_partial hroom]
      constructor
      · rintro ⟨bytes, tail, rfl, hbytes, hafter⟩
        rw [List.length_eq_zero_iff.mp hbytes, with_nil] at hafter
        rwa [List.length_eq_zero_iff.mp hbytes]
      · intro hafter
        exact ⟨[], r, rfl, rfl, by rwa [with_nil]⟩
    | succ k =>
      have hbyte : (⟨nested, k + 1 + 1, some head⟩ : CborBuffering).byte b =
          .ok ⟨nested, k + 1, some (head.next b)⟩ := by simp [byte]
      obtain rfl := Except.ok.inj (hbyte.symm.trans hb)
      have hnested := (hs.sound.missing (Option.some_ne_none head)).2
      refine ⟨⟨⟨fun _ => ⟨Nat.succ_ne_zero k, hnested⟩⟩, hs.top, ?_⟩, fun r => missing_partial hroom b r⟩
      intro head' h
      obtain rfl := Option.some.inj h
      exact next_small hroom
  | none =>
    by_cases hmore : more = 0
    · subst hmore
      cases nested with
      | nil => exact absurd ((done_iff _).mpr ⟨rfl, rfl⟩) hdone
      | cons n outer =>
        obtain ⟨n, rfl⟩ := Nat.exists_eq_succ_of_ne_zero (hs.top n outer rfl)
        cases hfirst : Head.first b with
        | error e =>
          simp only [byte, ne_eq, not_true, if_false, hfirst, bind, Except.bind] at hb
          cases hb
        | ok first =>
          obtain ⟨more, head⟩ := first
          obtain ⟨hroom, hinline, -⟩ := first_ok hfirst
          have hstart : ∀ r, Missing ⟨(n + 1) :: outer, 0, none⟩ (b :: r) ↔
              ∃ bytes tail, r = bytes ++ tail ∧ bytes.length = more ∧
                AfterHead ((n + 1) :: outer) (head.with bytes) tail := by
            intro r
            rw [missing_first, hfirst]
            constructor
            · rintro ⟨more', head', heq, h⟩
              obtain ⟨rfl, rfl⟩ := Prod.mk.inj (Except.ok.inj heq)
              exact h
            · intro h
              exact ⟨more, head, rfl, h⟩
          simp only [byte, ne_eq, not_true, if_false, hfirst, bind, Except.bind] at hb
          by_cases hzero : more = 0
          · subst hzero
            rw [if_pos rfl, Except.ok.injEq] at hb
            subst hb
            have hhuge : ¬ head.Huge := fun h => absurd (hinline rfl) (by have := h.2; omega)
            refine ⟨regular_enter _ _, fun r => ?_⟩
            rw [hstart, missing_enter hhuge]
            constructor
            · rintro ⟨bytes, tail, rfl, hbytes, hafter⟩
              rw [List.length_eq_zero_iff.mp hbytes, with_nil] at hafter
              rwa [List.length_eq_zero_iff.mp hbytes]
            · intro hafter
              exact ⟨[], r, rfl, rfl, by rwa [with_nil]⟩
          · rw [if_neg hzero, Except.ok.injEq] at hb
            subst hb
            refine ⟨⟨⟨fun _ => ⟨hzero, List.cons_ne_nil _ _⟩⟩, hs.top, ?_⟩, hstart⟩
            intro head' h
            obtain rfl := Option.some.inj h
            exact hroom
    · obtain ⟨k, rfl⟩ := Nat.exists_eq_succ_of_ne_zero hmore
      simp only [byte, ne_eq, hmore, not_false_eq_true, if_true, Except.ok.injEq] at hb
      subst hb
      refine ⟨⟨⟨fun h => absurd rfl h⟩, hs.top, ?_⟩, fun r => missing_payload nested k b r⟩
      intro head h
      cases h

/-! ## Calls after `reset` -/

/-- No byte of the input, up to the end of the item, completes the head of a huge map. -/
def NoHugeMap : CborBuffering → Bytes → Prop
  | _, [] => True
  | s, b :: input => s.done = true ∨ ¬ s.Overflows b ∧ ∀ s', s.byte b = .ok s' → NoHugeMap s' input

/-- The bytes consumed by calls that meet a condition, and the state after them. -/
inductive Consumed (ok : CborBuffering → Bytes → Prop) : Bytes → CborBuffering → Prop where
  | reset {s : CborBuffering} (hs : Sound s) (hdone : s.done = true) : Consumed ok [] s.reset
  | call {got input : Bytes} {s t : CborBuffering} {n : ℕ} (hs : Consumed ok got s) (hdone : ¬ s.done = true)
      (hok : ok s input) (ht : s.tryConsume input = (.ok n, t)) : Consumed ok (got ++ input.take n) t

/-- The scanner is done at the end of the item and not before, and no call takes a byte behind it or leaves one
in front of it; what it requires is still missing; and it refuses no beginning of an item. -/
structure Extent (got : Bytes) (s : CborBuffering) : Prop where
  done_iff : s.done = true ↔ WellFormed got
  within : ∀ p q, got = p ++ q → q ≠ [] → ¬ WellFormed p
  required_zero : s.required = 0 → s.done = true
  required_le : ∀ more, WellFormed (got ++ more) → s.required ≤ more.length
  whole : ∀ input n t, s.tryConsume input = (.ok n, t) → n < input.length → t.done = true
  refused : ∀ input e t, NoHugeMap s input → s.tryConsume input = (.error e, t) →
    ∀ more, ¬ WellFormed (got ++ (input ++ more))

/-- What is missing is what completes the bytes, and none of their beginnings is an item. -/
structure Reads (got : Bytes) (s : CborBuffering) : Prop where
  regular : Regular s
  missing : ∀ r, WellFormed (got ++ r) ↔ Missing s r
  within : ∀ p q, got = p ++ q → q ≠ [] → ¬ WellFormed p

theorem wellFormed_iff (r : Bytes) : WellFormed r ↔ Missing init.reset r := by
  rw [init, reset, missing_none, rest_zero]
  constructor
  · intro h
    exact ⟨r, [], (List.append_nil r).symm, h, rfl⟩
  · rintro ⟨a, b, rfl, ha, rfl⟩
    rwa [List.append_nil]

theorem done_sound {s : CborBuffering} (hs : Sound s) (hdone : s.done = true) : s = init := by
  obtain ⟨nested, more, part⟩ := s
  obtain ⟨rfl, rfl⟩ := (CborBuffering.done_iff _).mp hdone
  cases part with
  | none => rfl
  | some head => exact absurd rfl (hs.missing (Option.some_ne_none head)).1

theorem reads_reset {s : CborBuffering} (hs : Sound s) (hdone : s.done = true) : Reads [] s.reset := by
  rw [done_sound hs hdone]
  refine ⟨regular_reset, wellFormed_iff, fun p q h hq => ?_⟩
  exact absurd (List.append_eq_nil_iff.mp h.symm).2 hq

theorem missing_done {s : CborBuffering} (hs : Sound s) (hdone : s.done = true) (r : Bytes) : Missing s r ↔ r = [] := by
  rw [done_sound hs hdone, init, missing_none, rest_zero]
  rfl

/-- As many bytes are missing as are required at least. -/
theorem missing_required {s : CborBuffering} (hs : Regular s) {r : Bytes} (h : Missing s r) : s.required ≤ r.length := by
  obtain ⟨nested, more, part⟩ := s
  cases part with
  | some head =>
    obtain ⟨bytes, tail, rfl, hbytes, -⟩ := h
    have hmore := (hs.sound.missing (Option.some_ne_none head)).1
    have hlength : bytes.length = more := hbytes
    rw [required, if_pos hmore, List.length_append, hlength]
    exact Nat.le_add_right _ _
  | none =>
    obtain ⟨data, tail, rfl, hdata, htail⟩ := h
    have hlength : data.length = more := hdata
    unfold required
    simp only [List.length_append]
    split_ifs with hmore hnested
    · omega
    · exact Nat.zero_le _
    · cases nested with
      | nil => exact absurd rfl hnested
      | cons n outer =>
        have htop := hs.top n outer rfl
        obtain ⟨a, b, rfl, ha, -⟩ := htail
        have hle := ha.le_length
        rw [List.length_append]
        omega

theorem required_done {s : CborBuffering} (h : s.required = 0) : s.done = true := by
  obtain ⟨nested, more, part⟩ := s
  refine (CborBuffering.done_iff _).mpr ?_
  unfold required at h
  split_ifs at h with hmore hnested
  · exact absurd h hmore
  · exact ⟨not_not.mp hmore, hnested⟩

theorem missing_not_done {s : CborBuffering} (hs : Regular s) (hdone : ¬ s.done = true) : ¬ Missing s [] := by
  intro h
  exact hdone (required_done (Nat.le_zero.mp (missing_required hs h)))

theorem reads_step {got : Bytes} {s s' : CborBuffering} {b : UInt8} (h : Reads got s) (hdone : ¬ s.done = true)
    (hb : s.byte b = .ok s') (hsmall : ¬ s.Overflows b) : Reads (got ++ [b]) s' := by
  obtain ⟨hregular, hmissing⟩ := missing_step h.regular hdone hb hsmall
  refine ⟨hregular, fun r => ?_, fun p q hpq hq hp => ?_⟩
  · rw [List.append_assoc, h.missing, List.singleton_append, hmissing]
  · -- a beginning of the bytes is all of them without the last one, or a beginning of these
    obtain ⟨q', c, rfl⟩ := List.eq_nil_or_concat q |>.resolve_left hq
    rw [List.concat_eq_append, ← List.append_assoc] at hpq
    obtain ⟨hgot, -⟩ := List.append_inj' hpq rfl
    by_cases hnil : q' = []
    · rw [hnil, List.append_nil] at hgot
      rw [← hgot, ← List.append_nil got, h.missing] at hp
      exact missing_not_done h.regular hdone hp
    · exact h.within p q' hgot hnil hp

theorem reads_tryFeed {got input rest : Bytes} {s t : CborBuffering} (h : Reads got s) (hsmall : NoHugeMap s input)
    (ht : tryFeed s input = (.ok rest, t)) : ∃ used, input = used ++ rest ∧ Reads (got ++ used) t := by
  induction input generalizing got s with
  | nil =>
    obtain ⟨hrest, rfl⟩ := Prod.mk.inj ht
    obtain rfl : [] = rest := Except.ok.inj hrest
    exact ⟨[], rfl, by rwa [List.append_nil]⟩
  | cons b input ih =>
    by_cases hdone : s.done = true
    · rw [tryFeed_of_done hdone] at ht
      obtain ⟨hrest, rfl⟩ := Prod.mk.inj ht
      obtain rfl : b :: input = rest := Except.ok.inj hrest
      exact ⟨[], rfl, by rwa [List.append_nil]⟩
    · obtain hdone' | ⟨hnot, hnext⟩ := hsmall
      · exact absurd hdone' hdone
      · cases hb : s.byte b with
        | error e =>
          rw [tryFeed_error hdone hb] at ht
          cases ht
        | ok s' =>
          rw [tryFeed_ok hdone hb] at ht
          obtain ⟨used, rfl, hreads⟩ := ih (reads_step h hdone hb hnot) (hnext s' hb) ht
          rw [List.append_assoc] at hreads
          exact ⟨b :: used, rfl, hreads⟩

theorem refused_tryFeed {got input : Bytes} {s t : CborBuffering} {e : Error} (h : Reads got s)
    (hsmall : NoHugeMap s input) (ht : tryFeed s input = (.error e, t)) (more : Bytes) :
    ¬ WellFormed (got ++ (input ++ more)) := by
  induction input generalizing got s with
  | nil => cases ht
  | cons b input ih =>
    by_cases hdone : s.done = true
    · rw [tryFeed_of_done hdone] at ht
      cases ht
    · obtain hdone' | ⟨hnot, hnext⟩ := hsmall
      · exact absurd hdone' hdone
      · cases hb : s.byte b with
        | error e' =>
          rw [h.missing]
          exact missing_refused h.regular hdone hb _
        | ok s' =>
          rw [tryFeed_ok hdone hb] at ht
          have hbytes : got ++ (b :: input ++ more) = got ++ [b] ++ (input ++ more) := by
            rw [List.append_assoc]
            rfl
          rw [hbytes]
          exact ih (reads_step h hdone hb hnot) (hnext s' hb) ht

theorem reads_consumed {got : Bytes} {s : CborBuffering} (h : Consumed NoHugeMap got s) : Reads got s := by
  induction h with
  | reset hs hdone => exact reads_reset hs hdone
  | @call got input s t n _ hdone hok ht ih =>
    rw [tryConsume_eq ih.regular.sound] at ht
    cases hfeed : tryFeed s input with
    | mk r u =>
      rw [hfeed, Prod.mk.injEq] at ht
      obtain ⟨hn, rfl⟩ := ht
      cases r with
      | error e => cases hn
      | ok rest =>
        obtain ⟨used, rfl, hreads⟩ := reads_tryFeed ih hok hfeed
        obtain rfl : (used ++ rest).length - rest.length = n := Except.ok.inj hn
        rwa [List.length_append, Nat.add_sub_cancel, List.take_left]

/-- **Extent.** As long as no map of 2^63 pairs or more is begun, the scanner stops at the end of the object. -/
theorem object_extent {got : Bytes} {s : CborBuffering} (h : Consumed NoHugeMap got s) : Extent got s := by
  have hreads := reads_consumed h
  have hsound := hreads.regular.sound
  have hgot := hreads.missing []
  rw [List.append_nil] at hgot
  refine ⟨?_, hreads.within, required_done, ?_, ?_, ?_⟩
  · rw [hgot]
    constructor
    · intro hdone
      exact (missing_done hsound hdone []).mpr rfl
    · intro hmissing
      by_contra hdone
      exact missing_not_done hreads.regular hdone hmissing
  · intro more hmore
    exact missing_required hreads.regular ((hreads.missing more).mp hmore)
  · intro input n t ht hlt
    rw [tryConsume_eq hsound] at ht
    cases hfeed : tryFeed s input with
    | mk r u =>
      rw [hfeed, Prod.mk.injEq] at ht
      obtain ⟨hn, rfl⟩ := ht
      cases r with
      | error e => cases hn
      | ok rest =>
        have hkept : feed s input = .ok (u, rest) := by
          rw [feed_kept, hfeed]
          rfl
        obtain ⟨used, rfl, hfinal⟩ := feed_suffix hkept
        obtain rfl : (used ++ rest).length - rest.length = n := Except.ok.inj hn
        refine hfinal fun hnil => ?_
        rw [hnil, List.length_nil] at hlt
        exact Nat.lt_irrefl _ hlt
  · intro input e t hsmall ht more
    rw [tryConsume_eq hsound] at ht
    cases hfeed : tryFeed s input with
    | mk r u =>
      rw [hfeed, Prod.mk.injEq] at ht
      cases r with
      | error e' => exact refused_tryFeed hreads hsmall hfeed more
      | ok rest => cases ht.1

/-- The number 1 is consumed, and what follows it is left. -/
theorem number_extent : Extent [0x01] init := by
  have hfirst : init.reset.byte 0x01 = .ok init := by decide +kernel
  have hsmall : NoHugeMap init.reset [0x01, 0x02] := by
    refine .inr ⟨nofun, fun s' hs' => .inl ?_⟩
    obtain rfl := Except.ok.inj (hfirst.symm.trans hs')
    rfl
  exact object_extent (@Consumed.call _ _ [0x01, 0x02] _ _ 1 (.reset init_sound rfl) (by decide) hsmall (by decide +kernel))

/-- A map of 2^63 pairs is taken for an empty one. -/
theorem huge_map_done : Consumed (fun _ _ => True) [0xbb, 0x80, 0, 0, 0, 0, 0, 0, 0] init ∧
    ¬ Extent [0xbb, 0x80, 0, 0, 0, 0, 0, 0, 0] init := by
  constructor
  · exact @Consumed.call _ _ [0xbb, 0x80, 0, 0, 0, 0, 0, 0, 0] _ _ 9 (.reset init_sound rfl) (by decide) trivial
      (by decide +kernel)
  · intro h
    obtain ⟨m, a, k, tail, hbytes, hk, hafter⟩ := (nested_succ_iff).mp
      (⟨_, [], (List.append_nil _).symm, h.done_iff.mp rfl, rfl⟩ :
        Nested [0 + 1] [0xbb, 0x80, 0, 0, 0, 0, 0, 0, 0])
    have hread := Cbor.readHead_head m a tail
    rw [← hbytes] at hread
    have hmap : Cbor.readHead [0xbb, 0x80, 0, 0, 0, 0, 0, 0, 0] = some (.map, 2 ^ 63, []) := by decide +kernel
    rw [hmap] at hread
    simp only [Option.some.injEq, Prod.mk.injEq] at hread
    obtain ⟨rfl, hvalue, rfl⟩ := hread
    obtain rfl := Option.some.inj hk
    obtain ⟨inner, rest, hnil, hinner, -⟩ := hafter
    obtain ⟨rfl, -⟩ := List.append_eq_nil_iff.mp hnil.symm
    have hle := hinner.le_length
    simp only [← hvalue, List.length_nil] at hle
    omega

end CborBuffering
end IpfsLite.Common
