import IpfsLite.Codec.CborPosition
import IpfsLite.Codec.CborTypes

/-! # Reading integers

`operator>>` for the integral types at a CBOR integer, whose value lies between -2^64 and 2^64 - 1. The
signed types go through a 64-bit accessor that wraps around. -/
namespace IpfsLite.Codec
set_option autoImplicit false

open Cbor (Major Argument Items)

namespace CborDecodeStream
variable {P : Platform}

/-- The number that a head of one of the two integer types stands for. -/
def integerValue (m : Major) (n : ℕ) : ℤ := if m = .negative then -1 - n else n

/-- The values of an integral type. -/
def InRange (isSigned : Bool) (w : IntWidth) (z : ℤ) : Prop :=
  if isSigned then -2 ^ (w.bits - 1) ≤ z ∧ z < 2 ^ (w.bits - 1) else 0 ≤ z ∧ z < 2 ^ w.bits

/-- `operator>>` for an integral type, with the number that it stores. -/
def readInt (P : Platform) (isSigned : Bool) (w : IntWidth) (s : CborDecodeStream) : Result ℤ :=
  if isSigned then ((Ty.signed w).read P s).map fun x => x.1.toInt
  else ((Ty.unsigned w).read P s).map fun x => x.1.toNat

/-- The number is stored, or it does not fit and the call says so. -/
def Exact (P : Platform) (isSigned : Bool) (w : IntWidth) (s : CborDecodeStream) (z : ℤ) : Prop :=
  readInt P isSigned w s = .ok z ∨ readInt P isSigned w s = raise .intOverflow ∧ ¬ InRange isSigned w z

/-! ## What is stored -/

theorem untagged_integer {m : Major} (hm : m = .unsigned ∨ m = .negative) (a : Argument) :
    Untagged (Cbor.head m a) := by
  refine ⟨⟨false, .oneInteger a hm⟩, m, a, [], by rw [List.append_nil], ?_⟩
  obtain rfl | rfl := hm <;> decide

/-- What the accessor of the type returns. -/
def accessed (isSigned : Bool) (m : Major) (n : ℕ) : ℤ :=
  if isSigned then getInt64 (m = .negative) n else integerValue m n

theorem toInt_ofInt {w : IntWidth} {z : ℤ} (h : InRange true w z) : (BitVec.ofInt w.bits z).toInt = z := by
  obtain ⟨hmin, hmax⟩ := h
  refine BitVec.toInt_ofInt_eq_self ?_ hmin hmax
  cases w <;> decide

theorem readInt_in_range {m : Major} (hm : m = .unsigned ∨ m = .negative) {a : Argument} {rest : Bytes} {r : ℕ}
    {isSigned : Bool} {w : IntWidth} (h : InRange isSigned w (accessed isSigned m a.value)) :
    readInt P isSigned w (reading (Cbor.head m a ++ rest) r) =
      (restart P r (.atEnd rest)).bind fun _ => .ok (accessed isSigned m a.value) := by
  have hnext := next_untagged (P := P) (untagged_integer hm a) rest r
  have htype : (reading (Cbor.head m a ++ rest) r).value.type = some (m, some a.value) :=
    peek_head m a rest (by obtain rfl | rfl := hm <;> simp)
  cases isSigned with
  | true =>
    have hbounds : ¬ ((2 : ℤ) ^ (w.bits - 1) - 1 < getInt64 (m = .negative) a.value ∨
        getInt64 (m = .negative) a.value < -2 ^ (w.bits - 1)) := by
      obtain ⟨hmin, hmax⟩ : _ ≤ getInt64 (m = .negative) a.value ∧ getInt64 (m = .negative) a.value < _ := h
      omega
    have hread : (reading (Cbor.head m a ++ rest) r).readSigned P (-2 ^ (w.bits - 1)) (2 ^ (w.bits - 1) - 1) =
        (restart P r (.atEnd rest)).bind fun s => .ok (getInt64 (m = .negative) a.value, s) := by
      unfold readSigned
      obtain rfl | rfl := hm <;>
      · rw [htype]
        simp only [reduceCtorEq, decide_false, decide_true] at hbounds ⊢
        rw [if_neg hbounds, hnext]
        rfl
    rw [readInt, if_pos rfl, Ty.read, hread]
    cases restart P r (.atEnd rest) with
    | error f => rfl
    | ok s => exact congrArg Except.ok (toInt_ofInt h)
  | false =>
    obtain rfl | rfl := hm
    · have hmax : ¬ 2 ^ w.bits - 1 < a.value := by
        have hlt : (a.value : ℤ) < 2 ^ w.bits := h.2
        have hnat : a.value < 2 ^ w.bits := by exact_mod_cast hlt
        omega
      have hread : (reading (Cbor.head .unsigned a ++ rest) r).readUnsigned P (2 ^ w.bits - 1) =
          (restart P r (.atEnd rest)).bind fun s => .ok (a.value, s) := by
        unfold readUnsigned
        rw [htype]
        simp only
        rw [if_neg hmax, hnext]
        rfl
      rw [readInt, if_neg Bool.false_ne_true, Ty.read, hread]
      cases restart P r (.atEnd rest) with
      | error f => rfl
      | ok s =>
        have hpos := Nat.two_pow_pos w.bits
        have hlt : a.value < 2 ^ w.bits := by omega
        refine congrArg Except.ok ?_
        simp [accessed, integerValue, BitVec.toNat_ofNat, Nat.mod_eq_of_lt hlt]
    · have hneg : (0 : ℤ) ≤ -1 - a.value := h.1
      omega

theorem readInt_out_of_range {m : Major} (hm : m = .unsigned ∨ m = .negative) {a : Argument} {rest : Bytes}
    {r : ℕ} {isSigned : Bool} {w : IntWidth} (h : ¬ InRange isSigned w (accessed isSigned m a.value)) :
    readInt P isSigned w (reading (Cbor.head m a ++ rest) r) = raise .intOverflow := by
  have htype : (reading (Cbor.head m a ++ rest) r).value.type = some (m, some a.value) :=
    peek_head m a rest (by obtain rfl | rfl := hm <;> simp)
  cases isSigned with
  | true =>
    have hbounds : (2 : ℤ) ^ (w.bits - 1) - 1 < getInt64 (m = .negative) a.value ∨
        getInt64 (m = .negative) a.value < -2 ^ (w.bits - 1) := by
      have hnot : ¬ (-2 ^ (w.bits - 1) ≤ getInt64 (m = .negative) a.value ∧
        getInt64 (m = .negative) a.value < 2 ^ (w.bits - 1)) := h
      omega
    have hread : (reading (Cbor.head m a ++ rest) r).readSigned P (-2 ^ (w.bits - 1)) (2 ^ (w.bits - 1) - 1) =
        raise .intOverflow := by
      unfold readSigned
      obtain rfl | rfl := hm <;>
      · rw [htype]
        simp only [reduceCtorEq, decide_false, decide_true] at hbounds ⊢
        rw [if_pos hbounds]
    rw [readInt, if_pos rfl, Ty.read, hread]
    rfl
  | false =>
    have hread : (reading (Cbor.head m a ++ rest) r).readUnsigned P (2 ^ w.bits - 1) = raise .intOverflow := by
      unfold readUnsigned
      rw [htype]
      obtain rfl | rfl := hm
      · have hmax : 2 ^ w.bits - 1 < a.value := by
          by_contra hle
          have hnat : a.value < 2 ^ w.bits := by
            have hpos := Nat.two_pow_pos w.bits
            omega
          have hint : (a.value : ℤ) < 2 ^ w.bits := by exact_mod_cast hnat
          exact h ⟨Int.natCast_nonneg a.value, hint⟩
        simp only
        rw [if_pos hmax]
      · rfl
    rw [readInt, if_neg Bool.false_ne_true, Ty.read, hread]
    rfl

/-! ## When it is the number -/

/-- The accessor's value is not wrapped into the range of the type. -/
def NotWrapped (isSigned : Bool) (w : IntWidth) (n : ℕ) : Prop :=
  isSigned = true → n < 2 ^ 64 - 2 ^ (w.bits - 1)

theorem accessed_eq_iff {m : Major} (hm : m = .unsigned ∨ m = .negative) {n : ℕ} (hn : n < 2 ^ 64)
    {isSigned : Bool} {w : IntWidth} (h : InRange isSigned w (accessed isSigned m n)) :
    accessed isSigned m n = integerValue m n ↔ NotWrapped isSigned w n := by
  cases isSigned with
  | false => simp [accessed, NotWrapped]
  | true =>
    obtain ⟨hmin, hmax⟩ := h
    simp only [accessed, if_true, NotWrapped, true_imp_iff] at hmin hmax ⊢
    obtain rfl | rfl := hm
    all_goals
      simp only [getInt64, integerValue, reduceCtorEq, decide_false, decide_true, if_true, if_false,
        Bool.false_eq_true] at hmin hmax ⊢
      cases w <;> simp only [IntWidth.bits] at hmin hmax ⊢ <;> split_ifs at hmin hmax ⊢ <;> omega

theorem not_wrapped_of_out {m : Major} (hm : m = .unsigned ∨ m = .negative) {n : ℕ} (hn : n < 2 ^ 64)
    {isSigned : Bool} {w : IntWidth} (h : ¬ InRange isSigned w (accessed isSigned m n)) :
    NotWrapped isSigned w n ∧ ¬ InRange isSigned w (integerValue m n) := by
  cases isSigned with
  | false => exact ⟨fun hsigned => absurd hsigned (by simp), h⟩
  | true =>
    simp only [accessed, if_true, NotWrapped, true_imp_iff, InRange] at h ⊢
    obtain rfl | rfl := hm
    all_goals
      simp only [getInt64, integerValue, reduceCtorEq, decide_false, decide_true, if_true, if_false,
        Bool.false_eq_true] at h ⊢
      cases w <;> simp only [IntWidth.bits] at h ⊢ <;> split_ifs at h ⊢ <;> omega

/-- **Integers.** The number is stored exactly or refused as too large, exactly when a signed type does not
wrap it, and a number that fits has something readable behind it. -/
theorem exact_iff {m : Major} (hm : m = .unsigned ∨ m = .negative) (a : Argument) (rest : Bytes) (r : ℕ)
    (isSigned : Bool) (w : IntWidth) :
    Exact P isSigned w (reading (Cbor.head m a ++ rest) r) (integerValue m a.value) ↔
      NotWrapped isSigned w a.value ∧ (InRange isSigned w (integerValue m a.value) → Follows P rest) := by
  unfold Exact
  by_cases h : InRange isSigned w (accessed isSigned m a.value)
  · have hiff := accessed_eq_iff hm a.value_lt h
    rw [readInt_in_range hm h]
    by_cases hrest : Follows P rest
    · rw [restart_ok hrest]
      simp only [Except.bind, Except.ok.injEq, raise, reduceCtorEq, false_and, or_false, hiff]
      exact ⟨fun hw => ⟨hw, fun _ => hrest⟩, fun hw => hw.1⟩
    · rw [restart_error hrest]
      simp only [Except.bind, raise, reduceCtorEq, Except.error.injEq, Failure.raised.injEq, false_and, or_false,
        false_iff, not_and]
      intro hw hin
      exact hrest (hin (hiff.mpr hw ▸ h))
  · obtain ⟨hw, hout⟩ := not_wrapped_of_out hm a.value_lt h
    rw [readInt_out_of_range hm h]
    exact ⟨fun _ => ⟨hw, fun hin => absurd hin hout⟩, fun _ => .inr ⟨rfl, hout⟩⟩

/-- 2^64 - 1 is read as -1. -/
theorem largest_read_as_minus_one :
    let a : Argument := ⟨.eight, 2 ^ 64 - 1, by decide⟩
    create .reference (Cbor.head .unsigned a) = .ok (reading (Cbor.head .unsigned a ++ []) kUnknownCount) ∧
      readInt .reference true .w8 (reading (Cbor.head .unsigned a ++ []) kUnknownCount) = .ok (-1) ∧
      ¬ Exact .reference true .w8 (reading (Cbor.head .unsigned a ++ []) kUnknownCount)
        (integerValue .unsigned a.value) := by
  intro a
  have hread : readInt .reference true .w8 (reading (Cbor.head .unsigned a ++ []) kUnknownCount) = .ok (-1) := by
    decide +kernel
  refine ⟨by decide +kernel, hread, ?_⟩
  unfold Exact
  rw [hread]
  rintro (heq | ⟨heq, -⟩)
  · exact absurd heq (by decide +kernel)
  · exact absurd heq (by decide +kernel)

/-- -2 in one byte. -/
theorem minus_two_exact : Exact .reference true .w8
    (reading (Cbor.head .negative ⟨.inline, 1, by decide⟩ ++ []) kUnknownCount) (-2) :=
  (exact_iff (.inr rfl) ⟨.inline, 1, by decide⟩ [] kUnknownCount true .w8).mpr
    ⟨fun _ => by decide, fun _ => follows_nil _⟩

end CborDecodeStream
end IpfsLite.Codec
