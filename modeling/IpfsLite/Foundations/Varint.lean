import Mathlib

/-! # Base-128 varints of 64-bit values

Seven value bits per byte, low group first, the top bit set on every byte but the last. Ten bytes
hold any 64-bit value, which bounds both the writer and the reader. -/
namespace IpfsLite
set_option autoImplicit false

abbrev Bytes := List UInt8

namespace Varint

def encodeGroups : ℕ → ℕ → Bytes
  | 0, _ => []
  | fuel + 1, n =>
    if n < 128 then [UInt8.ofNat n] else UInt8.ofNat (n % 128 + 128) :: encodeGroups fuel (n / 128)

/-- The shortest encoding of `n < 2^64`. -/
def encode (n : ℕ) : Bytes := encodeGroups 10 n

def decodeGroups : ℕ → Bytes → Option (ℕ × Bytes)
  | 0, _ => none
  | _, [] => none
  | fuel + 1, b :: rest =>
    if b.toNat < 128 then some (b.toNat, rest)
    else (decodeGroups fuel rest).map fun r => (b.toNat - 128 + 128 * r.1, r.2)

/-- At most ten groups and the bytes after them; the value may exceed 64 bits. -/
def decode (bytes : Bytes) : Option (ℕ × Bytes) := decodeGroups 10 bytes

/-! ## Lengths -/

theorem encodeGroups_length_le (fuel n : ℕ) : (encodeGroups fuel n).length ≤ fuel := by
  induction fuel generalizing n with
  | zero => simp [encodeGroups]
  | succ fuel ih =>
    have := ih (n / 128)
    simp only [encodeGroups]
    split
    · simp
    · simpa using this

theorem encode_length_le (n : ℕ) : (encode n).length ≤ 10 := encodeGroups_length_le 10 n

theorem encode_length_pos (n : ℕ) : 0 < (encode n).length := by
  unfold encode encodeGroups
  split <;> simp

theorem encode_ne_nil (n : ℕ) : encode n ≠ [] :=
  List.ne_nil_of_length_pos (encode_length_pos n)

/-- A value below 128 takes one byte. -/
theorem encode_of_lt {n : ℕ} (h : n < 128) : encode n = [UInt8.ofNat n] := by
  simp [encode, encodeGroups, h]

/-! ## Round trip -/

theorem toNat_ofNat_of_lt {n : ℕ} (h : n < 256) : (UInt8.ofNat n).toNat = n := by
  simp [UInt8.toNat_ofNat', Nat.mod_eq_of_lt h]

theorem decodeGroups_encodeGroups (fuel n : ℕ) (rest : Bytes) (h : n < 128 ^ (fuel + 1)) :
    decodeGroups (fuel + 1) (encodeGroups (fuel + 1) n ++ rest) = some (n, rest) := by
  induction fuel generalizing n with
  | zero =>
    have hlt : n < 128 := by omega
    simp [encodeGroups, decodeGroups, hlt, toNat_ofNat_of_lt (show n < 256 by omega)]
  | succ fuel ih =>
    rw [encodeGroups]
    by_cases hlt : n < 128
    · simp [decodeGroups, toNat_ofNat_of_lt (show n < 256 by omega), hlt]
    · have hbyte := toNat_ofNat_of_lt (show n % 128 + 128 < 256 by omega)
      have hrest := ih (n / 128) (by rw [Nat.pow_succ] at h; omega)
      rw [if_neg hlt, List.cons_append, decodeGroups, hbyte, hrest, if_neg (by omega),
        Option.map_some, Option.some.injEq, Prod.mk.injEq]
      exact ⟨by omega, rfl⟩

theorem decode_encode_append {n : ℕ} (h : n < 2 ^ 64) (rest : Bytes) :
    decode (encode n ++ rest) = some (n, rest) :=
  decodeGroups_encodeGroups 9 n rest (by omega)

/-- More fuel than the value needs changes nothing. -/
theorem encodeGroups_fuel (fuel extra : ℕ) {n : ℕ} (h : n < 128 ^ (fuel + 1)) :
    encodeGroups (fuel + 1 + extra) n = encodeGroups (fuel + 1) n := by
  induction fuel generalizing n with
  | zero =>
    have hlt : n < 128 := by omega
    rw [Nat.add_right_comm]
    simp [encodeGroups, hlt]
  | succ fuel ih =>
    have hrest := ih (n := n / 128) (by rw [Nat.pow_succ] at h; omega)
    rw [Nat.add_right_comm, encodeGroups, hrest]
    rfl

/-- A reader limited to five groups reads any value below `2^35`. -/
theorem decodeGroups_five {n : ℕ} (h : n < 2 ^ 35) (rest : Bytes) :
    decodeGroups 5 (encode n ++ rest) = some (n, rest) := by
  have he : encode n = encodeGroups 5 n := encodeGroups_fuel 4 5 (by omega)
  rw [he]
  exact decodeGroups_encodeGroups 4 n rest (by omega)

/-- A successful read leaves a proper suffix of its input. -/
theorem decodeGroups_suffix {fuel : ℕ} {bytes rest : Bytes} {n : ℕ}
    (h : decodeGroups fuel bytes = some (n, rest)) :
    ∃ used, used ≠ [] ∧ bytes = used ++ rest := by
  induction fuel generalizing bytes n with
  | zero => simp [decodeGroups] at h
  | succ fuel ih =>
    cases bytes with
    | nil => simp [decodeGroups] at h
    | cons b bytes =>
      simp only [decodeGroups] at h
      split at h
      · simp only [Option.some.injEq, Prod.mk.injEq] at h
        exact ⟨[b], by simp, by simp [h.2]⟩
      · obtain ⟨r, hr, he⟩ := Option.map_eq_some_iff.mp h
        simp only [Prod.mk.injEq] at he
        have hr' : decodeGroups fuel bytes = some (r.1, rest) := by rw [hr, ← he.2]
        obtain ⟨used, -, hu⟩ := ih hr'
        exact ⟨b :: used, by simp, by simp [hu]⟩

theorem decode_suffix {bytes rest : Bytes} {n : ℕ} (h : decode bytes = some (n, rest)) :
    ∃ used, used ≠ [] ∧ bytes = used ++ rest :=
  decodeGroups_suffix h

end Varint
end IpfsLite
