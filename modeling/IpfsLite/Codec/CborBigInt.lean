import IpfsLite.Codec.CborRoundTrip
import IpfsLite.Foundations.Positional

/-! # `BigInt` in CBOR

`primitives/big_int.hpp`: a byte string of a sign and a magnitude, empty for zero. The reader takes any first byte
but 1 for a plus, and zeros in front of the magnitude. -/
namespace IpfsLite.Codec.Ty
set_option autoImplicit false

open Positional

theorem exportBits_eq (n : ℕ) : exportBits n = (littleEndian n).reverse := by
  rw [exportBits, littleEndian, List.map_reverse]

theorem ofBigEndian_exportBits (n : ℕ) : Cbor.ofBigEndian (exportBits n) = n := by
  rw [ofBigEndian_eq, exportBits_eq, List.reverse_reverse, ofLittleEndian_littleEndian]

/-- Without zeros in front. -/
theorem exportBits_ofBigEndian {b : UInt8} {magnitude : Bytes} (hb : b ≠ 0) :
    exportBits (Cbor.ofBigEndian (b :: magnitude)) = b :: magnitude := by
  rw [ofBigEndian_eq, exportBits_eq, littleEndian_ofLittleEndian, List.reverse_reverse]
  intro b' rest heq
  rw [List.reverse_cons] at heq
  obtain ⟨-, hlast⟩ := List.append_inj' heq rfl
  rw [← (List.cons.inj hlast).1]
  exact hb

theorem exportBits_head {n : ℕ} (hn : n ≠ 0) : ∃ b magnitude, exportBits n = b :: magnitude ∧ b ≠ 0 := by
  cases hexport : exportBits n with
  | nil =>
    have hzero := ofBigEndian_exportBits n
    rw [hexport] at hzero
    exact absurd hzero.symm hn
  | cons b magnitude =>
    refine ⟨b, magnitude, rfl, ?_⟩
    rw [exportBits_eq] at hexport
    have hdigits := congrArg List.reverse hexport
    rw [List.reverse_reverse, List.reverse_cons] at hdigits
    exact getLast_littleEndian hdigits

/-! ## The bytes of an integer -/

/-- Nothing, or one of the two signs and a magnitude that does not begin with a zero. -/
def Canonical (data : Bytes) : Prop :=
  data = [] ∨ ∃ sign b magnitude, data = sign :: b :: magnitude ∧ (sign = 0 ∨ sign = 1) ∧ b ≠ 0

theorem bigIntOf_bigIntBytes (n : ℤ) : bigIntOf (bigIntBytes n) = n := by
  unfold bigIntBytes
  by_cases hzero : n = 0
  · rw [if_pos hzero, hzero]
    rfl
  · rw [if_neg hzero]
    by_cases hneg : n < 0
    · rw [if_pos hneg, bigIntOf, if_pos rfl, ofBigEndian_exportBits]
      omega
    · rw [if_neg hneg, bigIntOf, if_neg (by decide), ofBigEndian_exportBits]
      omega

theorem canonical_bigIntBytes (n : ℤ) : Canonical (bigIntBytes n) := by
  unfold bigIntBytes
  by_cases hzero : n = 0
  · rw [if_pos hzero]
    exact .inl rfl
  · obtain ⟨b, magnitude, hexport, hb⟩ := exportBits_head (Int.natAbs_ne_zero.mpr hzero)
    rw [if_neg hzero, hexport]
    refine .inr ⟨_, b, magnitude, rfl, ?_, hb⟩
    split_ifs
    · exact .inr rfl
    · exact .inl rfl

theorem bigIntBytes_bigIntOf {data : Bytes} (h : Canonical data) : bigIntBytes (bigIntOf data) = data := by
  obtain rfl | ⟨sign, b, magnitude, rfl, hsign, hb⟩ := h
  · rfl
  · have hne : Cbor.ofBigEndian (b :: magnitude) ≠ 0 := by
      intro hzero
      have hexport : exportBits (Cbor.ofBigEndian (b :: magnitude)) = b :: magnitude := exportBits_ofBigEndian hb
      rw [hzero] at hexport
      cases hexport
    obtain rfl | rfl := hsign
    · rw [bigIntOf, if_neg (by decide), bigIntBytes, if_neg (by omega), if_neg (by omega), Int.natAbs_natCast,
        exportBits_ofBigEndian hb]
    · rw [bigIntOf, if_pos rfl, bigIntBytes, if_neg (by omega), if_pos (by omega), Int.natAbs_neg, Int.natAbs_natCast,
        exportBits_ofBigEndian hb]

/-! ## Encoding and decoding -/

variable {P : Platform}

theorem encode_bigInt (n : ℤ) : encode .bigInt n = encode .bytes (bigIntBytes n) := rfl

/-- It is read as bytes. -/
theorem decode_bigInt (input : Bytes) : decode P .bigInt input = (decode P .bytes input).map bigIntOf := by
  unfold decode
  cases CborDecodeStream.create P input with
  | error f => rfl
  | ok s =>
    simp only [bind, Except.bind, read]
    cases s.readBytes P with
    | error f => rfl
    | ok result => rfl

theorem encode_bytes (data : Bytes) : encode .bytes data = .ok (item .bytes data) := rfl

theorem decode_bytes {data : Bytes} (h : data.length ≤ P.bytesMax) : decode P .bytes (item .bytes data) = .ok data := by
  obtain ⟨input, hencode, hdecode⟩ := decode_item (P := P) (t := .bytes) (v := data) trivial h
  rw [encode_bytes, Except.ok.injEq] at hencode
  rwa [hencode]

/-- More bytes than a vector takes are not read. -/
theorem decode_bytes_long {data d : Bytes} (hsize : data.length < 2 ^ 64) (hlong : P.bytesMax < data.length) :
    decode P .bytes (item .bytes data) ≠ .ok d := by
  intro h
  have hpeek := peek_number (m := .bytes) hsize (fun hm => by cases hm) data
  have hstarts : Starts (item .bytes data) := by
    rw [show item .bytes data = encodeNumber .bytes data.length ++ data from rfl,
      CborEncodeStream.encodeNumber_eq .bytes hsize]
    exact starts_head _ _ (by decide)
  rw [decode, create_starts hstarts] at h
  simp only [bind, Except.bind, read] at h
  rw [CborDecodeStream.readBytes_of_type (n := data.length) hpeek, if_pos hlong] at h
  cases h

/-- **The encoding of integers.** Each is read back from its encoding. A byte string that is read is the encoding
of what is read exactly if it is one byte string with the shortest head, of a canonical sign and magnitude. -/
theorem bigInt_canonical_iff (P : Platform) :
    (∀ n : ℤ, (bigIntBytes n).length ≤ P.bytesMax →
      ∃ data, encode .bigInt n = .ok data ∧ decode P .bigInt data = .ok n) ∧
    ∀ (input : Bytes) (n : ℤ), input.length < 2 ^ 64 → decode P .bigInt input = .ok n →
      (encode .bigInt n = .ok input ↔
        ∃ data, input = encodeNumber .bytes data.length ++ data ∧ Canonical data) := by
  refine ⟨fun n hsize => ⟨_, encode_bytes _, ?_⟩, fun input n hinput hdecode => ⟨fun hencode => ?_, ?_⟩⟩
  · rw [decode_bigInt, decode_bytes hsize]
    exact congrArg Except.ok (bigIntOf_bigIntBytes n)
  · rw [encode_bigInt, encode_bytes, Except.ok.injEq] at hencode
    exact ⟨bigIntBytes n, hencode.symm, canonical_bigIntBytes n⟩
  · rintro ⟨data, rfl, hcanonical⟩
    rw [decode_bigInt] at hdecode
    have hitem : encodeNumber .bytes data.length ++ data = item .bytes data := rfl
    rw [List.length_append] at hinput
    by_cases hsize : data.length ≤ P.bytesMax
    · rw [hitem, decode_bytes hsize] at hdecode
      rw [encode_bigInt, ← Except.ok.inj hdecode, bigIntBytes_bigIntOf hcanonical, encode_bytes, hitem]
    · cases hread : decode P .bytes (encodeNumber .bytes data.length ++ data) with
      | error f =>
        rw [hread] at hdecode
        cases hdecode
      | ok d => exact absurd hread (decode_bytes_long (by omega) (Nat.not_le.mp hsize))

/-- A negative number is read back; its encoding is read as it is written. -/
theorem reference_bigInt :
    (∃ data, encode .bigInt (-0xcafe) = .ok data ∧ decode .reference .bigInt data = .ok (-0xcafe)) ∧
    encode .bigInt (-0xcafe) = .ok [0x43, 0x01, 0xca, 0xfe] := by
  obtain ⟨hread, hcanonical⟩ := bigInt_canonical_iff .reference
  refine ⟨hread (-0xcafe) (by decide +kernel), ?_⟩
  exact (hcanonical [0x43, 0x01, 0xca, 0xfe] (-0xcafe) (by decide) (by decide +kernel)).mpr
    ⟨[0x01, 0xca, 0xfe], by decide, .inr ⟨0x01, 0xca, [0xfe], rfl, .inr rfl, by decide⟩⟩

/-- A foreign sign byte, a zero in front, a negative zero, a long head, and a byte behind. -/
theorem second_spellings :
    decode .reference .bigInt [0x42, 0x02, 0x07] = .ok 7 ∧ decode .reference .bigInt [0x43, 0x00, 0x00, 0x07] = .ok 7 ∧
    decode .reference .bigInt [0x42, 0x01, 0x00] = .ok 0 ∧ decode .reference .bigInt [0x58, 0x02, 0x00, 0x07] = .ok 7 ∧
    decode .reference .bigInt [0x42, 0x00, 0x07, 0x00] = .ok 7 ∧
    encode .bigInt 7 = .ok [0x42, 0x00, 0x07] ∧ encode .bigInt 0 = .ok [0x40] := by
  refine ⟨?_, ?_, ?_, ?_, ?_, ?_, ?_⟩
  all_goals decide +kernel

end IpfsLite.Codec.Ty
