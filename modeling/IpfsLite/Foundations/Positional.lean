import IpfsLite.Foundations.Cbor

/-! # Numbers as bytes

The digits of a number to the base 256, the least significant first, and the number of such digits. Zeros behind
the digits do not matter; without them number and digits determine each other. -/
namespace IpfsLite.Positional
set_option autoImplicit false

def littleEndian (n : ℕ) : Bytes := (Nat.digits 256 n).map UInt8.ofNat

def ofLittleEndian (bytes : Bytes) : ℕ := Nat.ofDigits 256 (bytes.map UInt8.toNat)

theorem map_toNat_littleEndian (n : ℕ) : (littleEndian n).map UInt8.toNat = Nat.digits 256 n := by
  rw [littleEndian, List.map_map]
  refine (List.map_congr_left fun d hd => ?_).trans (List.map_id _)
  exact Varint.toNat_ofNat_of_lt (Nat.digits_lt_base (by decide) hd)

theorem map_ofNat_toNat (bytes : Bytes) : (bytes.map UInt8.toNat).map UInt8.ofNat = bytes := by
  rw [List.map_map]
  exact (List.map_congr_left fun b _ => UInt8.ofNat_toNat).trans (List.map_id _)

theorem ofLittleEndian_littleEndian (n : ℕ) : ofLittleEndian (littleEndian n) = n := by
  rw [ofLittleEndian, map_toNat_littleEndian, Nat.ofDigits_digits]

theorem ofLittleEndian_append_zeros (bytes : Bytes) (k : ℕ) :
    ofLittleEndian (bytes ++ List.replicate k 0) = ofLittleEndian bytes := by
  rw [ofLittleEndian, List.map_append, List.map_replicate]
  exact Nat.ofDigits_append_replicate_zero _

theorem ofLittleEndian_lt (bytes : Bytes) : ofLittleEndian bytes < 256 ^ bytes.length := by
  have h := Nat.ofDigits_lt_base_pow_length (b := 256) (l := bytes.map UInt8.toNat) (by decide) (by
    intro d hd
    obtain ⟨b, -, rfl⟩ := List.mem_map.mp hd
    exact b.toNat_lt)
  rwa [List.length_map] at h

theorem length_littleEndian_le {n k : ℕ} (h : n < 256 ^ k) : (littleEndian n).length ≤ k := by
  rw [littleEndian, List.length_map]
  exact (Nat.digits_length_le_iff (by decide) n).mpr h

/-- Digits that do not end in a zero are those of their number. -/
theorem littleEndian_ofLittleEndian {bytes : Bytes} (h : ∀ b rest, bytes = rest ++ [b] → b ≠ 0) :
    littleEndian (ofLittleEndian bytes) = bytes := by
  rw [littleEndian, ofLittleEndian, Nat.digits_ofDigits 256 (by decide), map_ofNat_toNat]
  · intro d hd
    obtain ⟨b, -, rfl⟩ := List.mem_map.mp hd
    exact b.toNat_lt
  · intro hne
    rw [List.getLast_map]
    intro hzero
    have hne' : bytes ≠ [] := fun hnil => hne (by rw [hnil, List.map_nil])
    exact h _ _ (List.dropLast_append_getLast hne').symm (UInt8.toNat_inj.mp hzero)

/-- The last digit of a number is not a zero. -/
theorem getLast_littleEndian {n : ℕ} {b : UInt8} {rest : Bytes} (h : littleEndian n = rest ++ [b]) : b ≠ 0 := by
  rintro rfl
  have hdigits := map_toNat_littleEndian n
  rw [h, List.map_append, List.map_singleton] at hdigits
  have hn : n ≠ 0 := by
    rintro rfl
    rw [Nat.digits_zero] at hdigits
    exact absurd hdigits (by simp)
  refine Nat.getLast_digit_ne_zero 256 hn ?_
  simp only [← hdigits, List.getLast_append_singleton]
  rfl

/-- Digits with zeros behind them are determined by their number. -/
theorem littleEndian_padded (bytes : Bytes) :
    ∃ k, bytes = littleEndian (ofLittleEndian bytes) ++ List.replicate k 0 := by
  induction bytes using List.reverseRecOn with
  | nil => exact ⟨0, rfl⟩
  | append_singleton bytes b ih =>
    by_cases hb : b = 0
    · obtain ⟨k, hk⟩ := ih
      have hsame := ofLittleEndian_append_zeros bytes 1
      rw [List.replicate_one] at hsame
      refine ⟨k + 1, ?_⟩
      rw [hb, hsame, List.replicate_succ', ← List.append_assoc, ← hk]
    · refine ⟨0, ?_⟩
      rw [littleEndian_ofLittleEndian, List.replicate_zero, List.append_nil]
      intro b' rest heq
      obtain ⟨-, hlast⟩ := List.append_inj' heq rfl
      rw [← (List.cons.inj hlast).1]
      exact hb

/-- As many bytes with one number are the same bytes. -/
theorem ofLittleEndian_inj {bytes bytes' : Bytes} (hlength : bytes.length = bytes'.length) :
    ofLittleEndian bytes = ofLittleEndian bytes' ↔ bytes = bytes' := by
  refine ⟨fun h => ?_, fun h => congrArg ofLittleEndian h⟩
  obtain ⟨k, hk⟩ := littleEndian_padded bytes
  obtain ⟨k', hk'⟩ := littleEndian_padded bytes'
  rw [← h] at hk'
  have hcount := congrArg List.length hk
  have hcount' := congrArg List.length hk'
  rw [List.length_append, List.length_replicate] at hcount hcount'
  have hsame : k = k' := by omega
  rw [hk, hk', hsame]

/-! ## The other order -/

theorem ofBigEndian_eq (bytes : Bytes) : Cbor.ofBigEndian bytes = ofLittleEndian bytes.reverse := by
  induction bytes with
  | nil => rfl
  | cons b bytes ih =>
    rw [Cbor.ofBigEndian_cons, ih, List.reverse_cons, ofLittleEndian, ofLittleEndian, List.map_append,
      Nat.ofDigits_append, List.length_map, List.length_reverse, List.map_singleton, Nat.ofDigits_singleton]
    ring

/-- The two orders agree on bytes that read the same in both directions. -/
theorem ofBigEndian_iff (bytes : Bytes) : Cbor.ofBigEndian bytes = ofLittleEndian bytes ↔ bytes.reverse = bytes := by
  rw [ofBigEndian_eq]
  exact ofLittleEndian_inj List.length_reverse

end IpfsLite.Positional
