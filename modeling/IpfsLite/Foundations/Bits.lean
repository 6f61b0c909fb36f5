import Mathlib

/-! # Bit strings

Numbers and bytes as lists of bits, the low bit first. Bytes hold eight bits each and the last is
filled up with zeros. -/
namespace IpfsLite.Bits
set_option autoImplicit false

/-- The low `n` bits of `k`. -/
def ofNat : ℕ → ℕ → List Bool
  | 0, _ => []
  | n + 1, k => (k % 2 = 1) :: ofNat n (k / 2)

def toNat : List Bool → ℕ
  | [] => 0
  | b :: bs => b.toNat + 2 * toNat bs

def ofByte (b : UInt8) : List Bool := ofNat 8 b.toNat

def ofBytes (bytes : List UInt8) : List Bool := bytes.flatMap ofByte

/-- The byte that starts at bit `8 * i`. -/
def byteAt (bs : List Bool) (i : ℕ) : UInt8 := UInt8.ofNat (toNat ((bs.drop (8 * i)).take 8))

def toBytes (bs : List Bool) : List UInt8 := (List.range ((bs.length + 7) / 8)).map (byteAt bs)

@[simp] theorem ofBytes_cons (b : UInt8) (bytes : List UInt8) :
    ofBytes (b :: bytes) = ofByte b ++ ofBytes bytes := rfl

theorem ofBytes_singleton (b : UInt8) : ofBytes [b] = ofByte b := List.append_nil _

/-! ## Lengths and values -/

@[simp] theorem ofNat_length (n k : ℕ) : (ofNat n k).length = n := by
  induction n generalizing k with
  | zero => rfl
  | succ n ih => rw [ofNat, List.length_cons, ih]

theorem toNat_lt (bs : List Bool) : toNat bs < 2 ^ bs.length := by
  induction bs with
  | nil => decide
  | cons b bs ih =>
    have hb : b.toNat ≤ 1 := Bool.toNat_le b
    rw [toNat, List.length_cons, Nat.pow_succ]
    omega

theorem toNat_ofNat {n k : ℕ} (h : k < 2 ^ n) : toNat (ofNat n k) = k := by
  induction n generalizing k with
  | zero =>
    rw [Nat.pow_zero, Nat.lt_one_iff] at h
    rw [ofNat, toNat, h]
  | succ n ih =>
    have hhalf : k / 2 < 2 ^ n := by
      rw [Nat.pow_succ] at h
      omega
    rw [ofNat, toNat, ih hhalf]
    have hbit : (decide (k % 2 = 1)).toNat = k % 2 := by
      rcases Nat.mod_two_eq_zero_or_one k with hk | hk <;> rw [hk] <;> rfl
    omega

theorem toNat_eq_zero {bs : List Bool} (h : true ∉ bs) : toNat bs = 0 := by
  induction bs with
  | nil => rfl
  | cons b bs ih =>
    rw [List.mem_cons, not_or] at h
    have hb : b = false := Bool.eq_false_of_not_eq_true (Ne.symm h.1)
    rw [toNat, ih h.2, hb]
    rfl

/-- Bits that are taken from a number, with zeros above them. -/
theorem ofNat_toNat (bs : List Bool) (n : ℕ) :
    ofNat (bs.length + n) (toNat bs) = bs ++ List.replicate n false := by
  induction bs with
  | nil =>
    rw [List.length_nil, Nat.zero_add, toNat, List.nil_append]
    induction n with
    | zero => rfl
    | succ n ih => simpa [ofNat, List.replicate_succ] using ih
  | cons b bs ih =>
    rw [List.length_cons, Nat.add_right_comm, ofNat, toNat]
    have hbit : (b.toNat + 2 * toNat bs) % 2 = b.toNat := by cases b <;> simp
    have hrest : (b.toNat + 2 * toNat bs) / 2 = toNat bs := by
      have hb := Bool.toNat_lt b
      omega
    rw [hbit, hrest, ih, List.cons_append]
    cases b <;> rfl

theorem ofByte_ofNat {k : ℕ} (h : k < 256) : ofByte (UInt8.ofNat k) = ofNat 8 k := by
  rw [ofByte, UInt8.toNat_ofNat', Nat.mod_eq_of_lt h]

theorem true_mem_ofByte {b : UInt8} (h : b ≠ 0) : true ∈ ofByte b := by
  by_contra hzero
  have hval : toNat (ofByte b) = b.toNat := toNat_ofNat b.toNat_lt
  rw [toNat_eq_zero hzero] at hval
  exact h (UInt8.toNat_inj.mp hval.symm)

theorem ofByte_inj {b c : UInt8} (h : ofByte b = ofByte c) : b = c := by
  have hval := congrArg toNat h
  rw [ofByte, ofByte, toNat_ofNat b.toNat_lt, toNat_ofNat c.toNat_lt] at hval
  exact UInt8.toNat_inj.mp hval

/-! ## Packing -/

theorem ofByte_byteAt (bs : List Bool) (i : ℕ) :
    ofByte (byteAt bs i) =
      (bs.drop (8 * i)).take 8 ++ List.replicate (8 - ((bs.drop (8 * i)).take 8).length) false := by
  have hlen : ((bs.drop (8 * i)).take 8).length ≤ 8 := List.length_take_le 8 _
  have hlt : toNat ((bs.drop (8 * i)).take 8) < 256 :=
    (toNat_lt _).trans_le (Nat.pow_le_pow_right (by decide) hlen)
  rw [byteAt, ofByte_ofNat hlt]
  have h := ofNat_toNat ((bs.drop (8 * i)).take 8) (8 - ((bs.drop (8 * i)).take 8).length)
  rwa [Nat.add_sub_cancel' hlen] at h

theorem ofBytes_map_byteAt (bs : List Bool) (n : ℕ) :
    ofBytes ((List.range n).map (byteAt bs)) =
      bs.take (8 * n) ++ List.replicate (8 * n - bs.length) false := by
  induction n with
  | zero => simp [ofBytes]
  | succ n ih =>
    have hsplit : ofBytes ((List.range (n + 1)).map (byteAt bs)) =
        ofBytes ((List.range n).map (byteAt bs)) ++ ofByte (byteAt bs n) := by
      simp [ofBytes, List.range_succ]
    rw [hsplit, ih, ofByte_byteAt]
    by_cases hn : 8 * n ≤ bs.length
    · have hnone : 8 * n - bs.length = 0 := by omega
      have hpad : 8 - ((bs.drop (8 * n)).take 8).length = 8 * (n + 1) - bs.length := by
        rw [List.length_take, List.length_drop]
        omega
      rw [hnone, hpad, List.replicate_zero, List.append_nil, ← List.append_assoc, ← List.take_add]
      rfl
    · have hpad : 8 * (n + 1) - bs.length = 8 * n - bs.length + 8 := by omega
      have hall : bs.take (8 * n) = bs := List.take_of_length_le (by omega)
      have hall' : bs.take (8 * (n + 1)) = bs := List.take_of_length_le (by omega)
      have hnone : bs.drop (8 * n) = [] := List.drop_eq_nil_of_le (by omega)
      rw [hnone, hall, hall', hpad, List.replicate_add]
      simp

/-- What was packed is there, followed by zeros only. -/
theorem ofBytes_toBytes (bs : List Bool) :
    ∃ pad, ofBytes (toBytes bs) = bs ++ List.replicate pad false := by
  refine ⟨8 * ((bs.length + 7) / 8) - bs.length, ?_⟩
  rw [toBytes, ofBytes_map_byteAt, List.take_of_length_le (by omega)]

theorem ofBytes_length (bytes : List UInt8) : (ofBytes bytes).length = 8 * bytes.length := by
  induction bytes with
  | nil => rfl
  | cons b bytes ih =>
    rw [ofBytes_cons, List.length_append, ih, ofByte, ofNat_length, List.length_cons]
    omega

end IpfsLite.Bits
