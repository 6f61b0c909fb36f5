import IpfsLite.Foundations.Positional

/-! # Integers as byte arrays

`common/mp_utils.cpp`. The 64-bit functions shift the bytes themselves; the 128-bit and 256-bit ones leave it to
boost, which is asked for the least significant chunk first in both directions. -/
namespace IpfsLite.MpUtils
set_option autoImplicit false

open Positional

/-- `std::array<uint8_t, size>`. -/
abbrev ByteArr (size : ℕ) := { bytes : Bytes // bytes.length = size }

/-! ## By shifts -/

/-- The byte at `i` is bits `8 * ( 7 - i )` up. -/
def uint64Byte (number : UInt64) (i : ℕ) : UInt8 := ((number >>> UInt64.ofNat (8 * (7 - i))) &&& 0xFF).toUInt8

theorem length_uint64Bytes (number : UInt64) : ((List.range 8).map (uint64Byte number)).length = 8 := by
  rw [List.length_map, List.length_range]

def uint64ToBytes (number : UInt64) : ByteArr 8 := ⟨(List.range 8).map (uint64Byte number), length_uint64Bytes number⟩

/-- The loop from the byte at `i` on. -/
def orBytes : ℕ → UInt64 → Bytes → UInt64
  | _, result, [] => result
  | i, result, b :: bytes => orBytes (i + 1) (result ||| (b.toUInt64 <<< UInt64.ofNat (i * 8))) bytes

def bytesToUint64 (bytes : ByteArr 8) : UInt64 := orBytes 0 0 bytes.val

/-! ## By boost -/

/-- `export_bits( i, out, 8, false )`: the chunks there are, and one for zero. -/
def exportChunks (n : ℕ) : Bytes := if n = 0 then [0] else littleEndian n

theorem length_exportChunks_le {n size : ℕ} (hsize : 0 < size) (hn : n < 256 ^ size) :
    (exportChunks n).length ≤ size := by
  unfold exportChunks
  split_ifs
  · exact hsize
  · exact length_littleEndian_le hn

/-- The chunks are written over zeros. -/
def writeOver (chunks : Bytes) (res : Bytes) : Bytes := chunks ++ res.drop chunks.length

theorem length_uintBytes {size : ℕ} [NeZero size] (i : Fin (256 ^ size)) :
    (writeOver (exportChunks i.val) (List.replicate size 0)).length = size := by
  have hle := length_exportChunks_le (Nat.pos_of_ne_zero (NeZero.ne size)) i.isLt
  rw [writeOver, List.length_append, List.length_drop, List.length_replicate]
  omega

/-- `detail::uint_to_bytes`. -/
def uintToBytes (size : ℕ) [NeZero size] (i : Fin (256 ^ size)) : ByteArr size :=
  ⟨writeOver (exportChunks i.val) (List.replicate size 0), length_uintBytes i⟩

theorem importBits_lt {size : ℕ} (bytes : ByteArr size) : ofLittleEndian bytes.val < 256 ^ size := by
  have h := ofLittleEndian_lt bytes.val
  rwa [bytes.property] at h

/-- `detail::bytes_to_uint`. -/
def bytesToUint (size : ℕ) (bytes : ByteArr size) : Fin (256 ^ size) := ⟨ofLittleEndian bytes.val, importBits_lt bytes⟩

def uint128ToBytes : Fin (256 ^ 16) → ByteArr 16 := uintToBytes 16
def bytesToUint128 : ByteArr 16 → Fin (256 ^ 16) := bytesToUint 16
def uint256ToBytes : Fin (256 ^ 32) → ByteArr 32 := uintToBytes 32
def bytesToUint256 : ByteArr 32 → Fin (256 ^ 32) := bytesToUint 32

/-! ## What the shifts do -/

theorem pow_256 (k : ℕ) : 256 ^ k = 2 ^ (8 * k) := by
  rw [Nat.pow_mul]

theorem uint64Byte_eq (number : UInt64) {i : ℕ} (hi : i < 8) :
    uint64Byte number i = UInt8.ofNat (number.toNat / 256 ^ (7 - i)) := by
  have hshift : 8 * (7 - i) % 2 ^ 64 % 64 = 8 * (7 - i) := by omega
  refine UInt8.toNat_inj.mp ?_
  rw [uint64Byte, UInt64.toNat_toUInt8, UInt64.toNat_and, UInt64.toNat_shiftRight, UInt64.toNat_ofNat', hshift,
    Nat.shiftRight_eq_div_pow, UInt8.toNat_ofNat', pow_256, show (0xFF : UInt64).toNat = 2 ^ 8 - 1 from rfl,
    Nat.and_two_pow_sub_one_eq_mod, Nat.mod_mod]

/-- The most significant byte comes first. -/
theorem uint64ToBytes_eq (number : UInt64) : (uint64ToBytes number).val = Cbor.bigEndian 8 number.toNat := by
  have hbytes : (uint64ToBytes number).val =
      (List.range 8).map fun i => UInt8.ofNat (number.toNat / 256 ^ (7 - i)) :=
    List.map_congr_left fun i hi => uint64Byte_eq number (List.mem_range.mp hi)
  rw [hbytes]
  rfl

/-- The least significant byte comes first. -/
theorem orBytes_toNat {bytes : Bytes} {i : ℕ} {result : UInt64} (hi : i + bytes.length ≤ 8)
    (hresult : result.toNat < 256 ^ i) :
    (orBytes i result bytes).toNat = result.toNat + 256 ^ i * ofLittleEndian bytes := by
  induction bytes generalizing i result with
  | nil => simp [orBytes, ofLittleEndian]
  | cons b bytes ih =>
    rw [List.length_cons] at hi
    have hb : b.toNat < 256 := b.toNat_lt
    have hshift : i * 8 % 2 ^ 64 % 64 = 8 * i := by omega
    have hpow : 256 ^ (i + 1) = 256 ^ i * 256 := Nat.pow_succ 256 i
    have hle : 256 ^ (i + 1) ≤ 256 ^ 8 := Nat.pow_le_pow_right (by decide) (by omega)
    have hplace : 256 ^ i * b.toNat + 256 ^ i ≤ 256 ^ (i + 1) := by
      rw [hpow, ← Nat.mul_succ]
      exact Nat.mul_le_mul_left _ hb
    have hvalue : (result ||| (b.toUInt64 <<< UInt64.ofNat (i * 8))).toNat = result.toNat + 256 ^ i * b.toNat := by
      rw [UInt64.toNat_or, UInt64.toNat_shiftLeft, UInt64.toNat_ofNat', hshift, UInt8.toNat_toUInt64,
        Nat.shiftLeft_eq, ← pow_256, Nat.mul_comm b.toNat, Nat.mod_eq_of_lt (by omega), pow_256,
        Nat.or_comm, ← Nat.two_pow_add_eq_or_of_lt (pow_256 i ▸ hresult), Nat.add_comm]
    rw [orBytes, ih (by omega) (by rw [hvalue]; omega), hvalue, hpow]
    simp only [ofLittleEndian, List.map_cons, Nat.ofDigits_cons]
    ring

theorem bytesToUint64_toNat (bytes : ByteArr 8) : (bytesToUint64 bytes).toNat = ofLittleEndian bytes.val := by
  rw [bytesToUint64, orBytes_toNat (by rw [bytes.property]) (by decide)]
  simp

/-! ## What boost does -/

theorem writeOver_eq {chunks : Bytes} {size : ℕ} : writeOver chunks (List.replicate size 0) =
    chunks ++ List.replicate (size - chunks.length) 0 := by
  rw [writeOver, List.drop_replicate]

theorem ofLittleEndian_exportChunks (n : ℕ) : ofLittleEndian (exportChunks n) = n := by
  unfold exportChunks
  split_ifs with hzero
  · rw [hzero]
    rfl
  · exact ofLittleEndian_littleEndian n

theorem bytesToUint_uintToBytes (size : ℕ) [NeZero size] (i : Fin (256 ^ size)) :
    bytesToUint size (uintToBytes size i) = i := by
  refine Fin.ext ?_
  simp only [bytesToUint, uintToBytes]
  rw [writeOver_eq, ofLittleEndian_append_zeros, ofLittleEndian_exportChunks]

theorem uintToBytes_bytesToUint (size : ℕ) [NeZero size] (bytes : ByteArr size) :
    uintToBytes size (bytesToUint size bytes) = bytes := by
  have hval := congrArg Fin.val (bytesToUint_uintToBytes size (bytesToUint size bytes))
  refine Subtype.ext ?_
  refine (ofLittleEndian_inj ?_).mp hval
  rw [(uintToBytes size _).property, bytes.property]

/-! ## Both ways -/

theorem bytesToUint64_uint64ToBytes_iff (number : UInt64) : bytesToUint64 (uint64ToBytes number) = number ↔
    (Cbor.bigEndian 8 number.toNat).reverse = Cbor.bigEndian 8 number.toNat := by
  have hlt : number.toNat < 256 ^ 8 := number.toNat_lt
  rw [← UInt64.toNat_inj, bytesToUint64_toNat, uint64ToBytes_eq, ← ofBigEndian_iff, Cbor.ofBigEndian_bigEndian hlt]
  exact eq_comm

theorem uint64ToBytes_bytesToUint64_iff (bytes : ByteArr 8) : uint64ToBytes (bytesToUint64 bytes) = bytes ↔
    bytes.val.reverse = bytes.val := by
  have hown := Cbor.bigEndian_ofBigEndian bytes.val
  rw [bytes.property] at hown
  rw [← ofBigEndian_iff, ← Subtype.val_inj, uint64ToBytes_eq, bytesToUint64_toNat]
  constructor
  · intro h
    have hvalue := congrArg Cbor.ofBigEndian h
    rw [Cbor.ofBigEndian_bigEndian (importBits_lt bytes)] at hvalue
    exact hvalue.symm
  · intro h
    rw [← h]
    exact hown

/-- **The conversions invert each other**, the 64-bit ones exactly on what reads the same in both directions. -/
theorem conversions_invert (n64 : UInt64) (b64 : ByteArr 8) (n128 : Fin (256 ^ 16)) (b128 : ByteArr 16)
    (n256 : Fin (256 ^ 32)) (b256 : ByteArr 32) :
    (bytesToUint64 (uint64ToBytes n64) = n64 ↔
      (Cbor.bigEndian 8 n64.toNat).reverse = Cbor.bigEndian 8 n64.toNat) ∧
    (uint64ToBytes (bytesToUint64 b64) = b64 ↔ b64.val.reverse = b64.val) ∧
    bytesToUint128 (uint128ToBytes n128) = n128 ∧ uint128ToBytes (bytesToUint128 b128) = b128 ∧
    bytesToUint256 (uint256ToBytes n256) = n256 ∧ uint256ToBytes (bytesToUint256 b256) = b256 :=
  ⟨bytesToUint64_uint64ToBytes_iff n64, uint64ToBytes_bytesToUint64_iff b64, bytesToUint_uintToBytes 16 n128,
    uintToBytes_bytesToUint 16 b128, bytesToUint_uintToBytes 32 n256, uintToBytes_bytesToUint 32 b256⟩

/-- One comes back as 2^56. -/
theorem one_reversed : bytesToUint64 (uint64ToBytes 1) = 0x0100000000000000 ∧
    bytesToUint64 (uint64ToBytes 1) ≠ 1 := by
  exact ⟨by decide +kernel, by decide +kernel⟩

end IpfsLite.MpUtils
