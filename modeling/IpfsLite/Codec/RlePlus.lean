import IpfsLite.Foundations.Bits
import IpfsLite.Foundations.OrdMap
import IpfsLite.Foundations.Varint

/-! # RLE+

A set of integers as run lengths: a header of two version bits and the polarity of the first run,
then one block a run. A run of length 1 is one set bit; a run below 16 is `01` and four bits; any
other is `00` and a varint. Trailing zeros of the last byte end the stream. -/
namespace IpfsLite.Codec
set_option autoImplicit false

/-- The integer types the codec is used at. -/
inductive IntType
  | uint8 | uint16 | uint32 | uint64
deriving DecidableEq, Repr

def IntType.bits : IntType → ℕ
  | uint8 => 8
  | uint16 => 16
  | uint32 => 32
  | uint64 => 64

def IntType.sizeof (T : IntType) : ℕ := T.bits / 8

abbrev Value (T : IntType) : Type := Fin (2 ^ T.bits)

abbrev IntSet (T : IntType) : Type := OrdMap (Value T) Unit

namespace RlePlus

/-- `OBJECT_MAX_SIZE / sizeof( T )`. -/
def maxSize (T : IntType) : ℕ := 0x100000 / T.sizeof

inductive DecodeError
  | versionMismatch | dataIndexFailure | unpackOverflow | maxSizeExceed
deriving DecidableEq, Repr

variable {T : IntType}

/-! ## Encoding -/

/-- `periods.back()++`, which wraps in `T`. -/
def incrementBack : List (Value T) → List (Value T)
  | [] => []
  | [p] => [p + 1]
  | p :: ps => p :: incrementBack ps

def getPeriodsLoop : List (Value T) → Value T → List (Value T) → List (Value T)
  | [], _, periods => periods
  | x :: xs, prev, periods =>
    let diff := x - prev
    let periods := if diff = 1 then incrementBack periods else periods
    let periods := if 1 < diff then periods ++ [diff - 1, 1] else periods
    getPeriodsLoop xs x periods

def getPeriods : List (Value T) → List (Value T)
  | [] => []
  | x :: xs => getPeriodsLoop xs x ((if x ≠ 0 then [x] else []) ++ [1])

def pushSmallBlock (block : Value T) : List Bool := [false, true] ++ Bits.ofNat 4 block.val

/-- Seven bits a byte, the top bit set on every byte but the last. -/
def pushLongBlock (block : Value T) : List Bool :=
  [false, false] ++ Bits.ofBytes (Varint.encodeGroups T.bits block.val)

def pushBlock (value : Value T) : List Bool :=
  if value.val = 1 then [true]
  else if value.val < 16 then pushSmallBlock value
  else pushLongBlock value

/-- Whether the first run consists of members. -/
def startsAtZero : List (Value T) → Bool
  | [] => false
  | x :: _ => x = 0

def content (input : IntSet T) : List Bool :=
  [false, false] ++ [startsAtZero input.keys] ++ (getPeriods input.keys).flatMap pushBlock

def encode (input : IntSet T) : Bytes := Bits.toBytes (content input)

/-! ## Decoding -/

/-- `getSpan<uint8_t>( count )`: the value of the next bits, which are dropped. -/
def getSpan (count : ℕ) (bits : List Bool) : Except DecodeError (UInt8 × List Bool) :=
  if bits.length < count then .error .dataIndexFailure
  else .ok (UInt8.ofNat (Bits.toNat (bits.take count)), bits.drop count)

/-- The decoding stream with the loop's variables. -/
structure Decoder (T : IntType) where
  bits : List Bool
  magnitude : Bool
  value : Value T
  output : IntSet T

/-- `output.insert( current_value++ )`, `length` times. -/
def insertRun : ℕ → Value T → IntSet T → IntSet T
  | 0, _, output => output
  | length + 1, value, output => insertRun length (value + 1) (output.insert value ())

def Decoder.advance (d : Decoder T) (length : ℕ) : Decoder T where
  bits := d.bits
  magnitude := !d.magnitude
  value := d.value + Fin.ofNat _ length
  output := if d.magnitude then insertRun length d.value d.output else d.output

def decodeSingleBlock (d : Decoder T) : Except DecodeError (Decoder T) := .ok (d.advance 1)

def decodeSmallBlock (d : Decoder T) : Except DecodeError (Decoder T) := do
  let (length, bits) ← getSpan 4 d.bits
  return { d with bits := bits }.advance length.toNat

/-- Bytes up to the first without the top bit. -/
def readSlices : ℕ → List Bool → Except DecodeError (Bytes × List Bool)
  | 0, _ => .error .dataIndexFailure
  | fuel + 1, bits => do
    let (slice, bits) ← getSpan 8 bits
    if slice.toNat < 128 then return ([slice], bits)
    else
      let (slices, bits) ← readSlices fuel bits
      return (slice :: slices, bits)

def unpackFrom : Bytes → Value T → ℕ → Except DecodeError (Value T)
  | [], value, _ => .ok value
  | byte :: data, value, shift =>
    if T.bits < shift then .error .unpackOverflow
    else if byte.toNat < 128 then .ok (Fin.ofNat _ (value.val ||| byte.toNat <<< shift))
    else unpackFrom data (Fin.ofNat _ (value.val ||| (byte.toNat % 128) <<< shift)) (shift + 7)

def unpack (T : IntType) (data : Bytes) : Except DecodeError (Value T) := unpackFrom data 0 0

def decodeLongBlock (d : Decoder T) : Except DecodeError (Decoder T) := do
  -- a slice takes eight bits, so the fuel outlasts the stream
  let (slices, bits) ← readSlices d.bits.length d.bits
  let length ← unpack T slices
  return { d with bits := bits }.advance length.val

def decodeBlock (d : Decoder T) : Except DecodeError (Decoder T) := do
  let (header, bits) ← getSpan 1 d.bits
  if header = 1 then decodeSingleBlock { d with bits := bits }
  else
    let (blockHeader, bits) ← getSpan 1 bits
    if blockHeader = 0 then decodeLongBlock { d with bits := bits }
    else decodeSmallBlock { d with bits := bits }

/-- Blocks as long as a set bit is left. Every block takes a bit, so fuel for each bit is enough. -/
def decodeBlocks : ℕ → Decoder T → Except DecodeError (Decoder T)
  | 0, d => .ok d
  | fuel + 1, d => if true ∈ d.bits then decodeBlock d >>= decodeBlocks fuel else .ok d

def decode (T : IntType) (input : Bytes) : Except DecodeError (IntSet T) := do
  let bits := Bits.ofBytes input
  if bits.length < 4 then throw .versionMismatch
  let (version, bits) ← getSpan 2 bits
  if version ≠ 0 then throw .versionMismatch
  let (magnitude, bits) ← getSpan 1 bits
  let d ← decodeBlocks bits.length ⟨bits, magnitude = 1, (0 : Value T), .empty⟩
  if maxSize T < d.output.keys.length then throw .maxSizeExceed
  return d.output

/-! ## Blocks are read back -/

theorem ok_bind {α β : Type} (a : α) (f : α → Except DecodeError β) :
    (Except.ok a >>= f) = f a := rfl

theorem getSpan_append {count : ℕ} {span : List Bool} (rest : List Bool) (h : span.length = count) :
    getSpan count (span ++ rest) = .ok (UInt8.ofNat (Bits.toNat span), rest) := by
  have hlen : ¬(span ++ rest).length < count := by
    rw [List.length_append]
    omega
  rw [getSpan, if_neg hlen, List.take_left' h, List.drop_left' h]

theorem getSpan_ofByte (b : UInt8) (rest : List Bool) :
    getSpan 8 (Bits.ofByte b ++ rest) = .ok (b, rest) := by
  rw [Bits.ofByte, getSpan_append rest (Bits.ofNat_length 8 _), Bits.toNat_ofNat b.toNat_lt]
  simp

theorem readSlices_last {fuel n : ℕ} (hn : n < 128) (hfuel : 0 < fuel) (rest : List Bool) :
    readSlices fuel (Bits.ofBytes [UInt8.ofNat n] ++ rest) = .ok ([UInt8.ofNat n], rest) := by
  obtain ⟨fuel, rfl⟩ := Nat.exists_eq_succ_of_ne_zero hfuel.ne'
  have hbyte := Varint.toNat_ofNat_of_lt (show n < 256 by omega)
  rw [readSlices, Bits.ofBytes_singleton, getSpan_ofByte, ok_bind]
  show (if (UInt8.ofNat n).toNat < 128 then _ else _) = _
  rw [hbyte, if_pos hn]
  rfl

theorem readSlices_encodeGroups {groups fuel n : ℕ} (hn : n < 128 ^ (groups + 1))
    (hfuel : (Varint.encodeGroups (groups + 1) n).length ≤ fuel) (rest : List Bool) :
    readSlices fuel (Bits.ofBytes (Varint.encodeGroups (groups + 1) n) ++ rest) =
      .ok (Varint.encodeGroups (groups + 1) n, rest) := by
  induction groups generalizing fuel n with
  | zero =>
    have hlt : n < 128 := by simpa using hn
    have hone : Varint.encodeGroups 1 n = [UInt8.ofNat n] := by simp [Varint.encodeGroups, hlt]
    rw [Nat.zero_add, hone] at hfuel ⊢
    exact readSlices_last hlt hfuel rest
  | succ groups ih =>
    rw [Varint.encodeGroups] at hfuel ⊢
    by_cases hlt : n < 128
    · rw [if_pos hlt] at hfuel ⊢
      exact readSlices_last hlt hfuel rest
    · have hbyte := Varint.toNat_ofNat_of_lt (show n % 128 + 128 < 256 by omega)
      have hrest : n / 128 < 128 ^ (groups + 1) := by
        rw [Nat.pow_succ] at hn
        omega
      rw [if_neg hlt] at hfuel ⊢
      obtain ⟨fuel, rfl⟩ := Nat.exists_eq_succ_of_ne_zero (Nat.lt_of_lt_of_le (Nat.succ_pos _) hfuel).ne'
      have hfuel' := Nat.le_of_succ_le_succ hfuel
      rw [readSlices, Bits.ofBytes_cons, List.append_assoc, getSpan_ofByte, ok_bind]
      show (if (UInt8.ofNat (n % 128 + 128)).toNat < 128 then _ else _) = _
      rw [hbyte, if_neg (by omega), ih hrest hfuel']
      rfl

theorem or_slice {value shift : ℕ} (hvalue : value < 2 ^ shift) (slice : ℕ) :
    value ||| slice <<< shift = slice * 2 ^ shift + value := by
  rw [Nat.lor_comm, ← Nat.shiftLeft_add_eq_or_of_lt hvalue, Nat.shiftLeft_eq]

theorem unpackFrom_last {n shift : ℕ} {value : Value T} (hn : n < 128)
    (hvalue : value.val < 2 ^ shift) (hshift : shift ≤ T.bits) :
    unpackFrom [UInt8.ofNat n] value shift = .ok (Fin.ofNat _ (n * 2 ^ shift + value.val)) := by
  have hbyte := Varint.toNat_ofNat_of_lt (show n < 256 by omega)
  rw [unpackFrom, hbyte, if_neg (by omega), if_pos hn, or_slice hvalue]

/-- The low `shift` bits are there already; the slices hold the others. -/
theorem unpackFrom_encodeGroups {groups n shift : ℕ} {value : Value T} (hn : n < 128 ^ (groups + 1))
    (hvalue : value.val < 2 ^ shift) (hsum : n * 2 ^ shift + value.val < 2 ^ T.bits)
    (hshift : shift ≤ T.bits) :
    unpackFrom (Varint.encodeGroups (groups + 1) n) value shift =
      .ok (Fin.ofNat _ (n * 2 ^ shift + value.val)) := by
  induction groups generalizing n shift value with
  | zero =>
    have hlt : n < 128 := by simpa using hn
    have hone : Varint.encodeGroups 1 n = [UInt8.ofNat n] := by simp [Varint.encodeGroups, hlt]
    rw [Nat.zero_add, hone, unpackFrom_last hlt hvalue hshift]
  | succ groups ih =>
    rw [Varint.encodeGroups]
    by_cases hlt : n < 128
    · rw [if_pos hlt, unpackFrom_last hlt hvalue hshift]
    · have hbyte := Varint.toNat_ofNat_of_lt (show n % 128 + 128 < 256 by omega)
      have hmod : (n % 128 + 128) % 128 = n % 128 := by omega
      have hrest : n / 128 < 128 ^ (groups + 1) := by
        rw [Nat.pow_succ] at hn
        omega
      have hpow : 2 ^ (shift + 7) = 128 * 2 ^ shift := by rw [Nat.pow_add, Nat.mul_comm]
      have hsplit : n * 2 ^ shift = n / 128 * 2 ^ (shift + 7) + n % 128 * 2 ^ shift := by
        rw [hpow, ← Nat.mul_assoc, ← Nat.add_mul]
        congr 1
        omega
      have hlow : n % 128 * 2 ^ shift + value.val < 2 ^ (shift + 7) := by
        have : n % 128 * 2 ^ shift ≤ 127 * 2 ^ shift := Nat.mul_le_mul_right _ (by omega)
        omega
      obtain ⟨next, hnext, hval⟩ : ∃ next : Value T,
          next = Fin.ofNat _ (n % 128 * 2 ^ shift + value.val) ∧
            next.val = n % 128 * 2 ^ shift + value.val :=
        ⟨_, rfl, Nat.mod_eq_of_lt (by omega)⟩
      have hshift' : shift + 7 ≤ T.bits := by
        -- the number has a bit above this slice
        have hge : 2 ^ (shift + 7) ≤ n / 128 * 2 ^ (shift + 7) := Nat.le_mul_of_pos_left _ (by omega)
        have hlt : 2 ^ (shift + 7) < 2 ^ T.bits := by omega
        exact ((Nat.pow_lt_pow_iff_right (by decide)).mp hlt).le
      rw [if_neg hlt, unpackFrom, hbyte, if_neg (by omega), if_neg (by omega), hmod,
        or_slice hvalue, ← hnext, ih hrest (by omega) (by omega) hshift', hval]
      congr 2
      omega

theorem getSpan_bit (b : Bool) (rest : List Bool) :
    getSpan 1 (b :: rest) = .ok (if b then 1 else 0, rest) := by
  have h := getSpan_append rest (show [b].length = 1 from rfl)
  cases b <;> exact h

theorem decodeBlock_single {d : Decoder T} {rest : List Bool} (h : d.bits = true :: rest) :
    decodeBlock d = decodeSingleBlock { d with bits := rest } := by
  rw [decodeBlock, h, getSpan_bit]
  rfl

theorem decodeBlock_small {d : Decoder T} {rest : List Bool} (h : d.bits = false :: true :: rest) :
    decodeBlock d = decodeSmallBlock { d with bits := rest } := by
  simp only [decodeBlock, h, getSpan_bit, ok_bind]
  rfl

theorem decodeBlock_long {d : Decoder T} {rest : List Bool} (h : d.bits = false :: false :: rest) :
    decodeBlock d = decodeLongBlock { d with bits := rest } := by
  simp only [decodeBlock, h, getSpan_bit, ok_bind]
  rfl

theorem decodeSmallBlock_ofNat {d : Decoder T} {length : ℕ} {rest : List Bool} (hlt : length < 16)
    (h : d.bits = Bits.ofNat 4 length ++ rest) :
    decodeSmallBlock d = .ok ({ d with bits := rest }.advance length) := by
  have hspan := getSpan_append rest (Bits.ofNat_length 4 length)
  have hbyte := Varint.toNat_ofNat_of_lt (show length < 256 by omega)
  rw [Bits.toNat_ofNat hlt] at hspan
  rw [decodeSmallBlock, h, hspan]
  show Except.ok (Decoder.advance _ (UInt8.ofNat length).toNat) = _
  rw [hbyte]

theorem bits_succ (T : IntType) : ∃ groups, T.bits = groups + 1 := by
  cases T <;> exact ⟨_, rfl⟩

theorem decodeLongBlock_encodeGroups {d : Decoder T} {block : Value T} {rest : List Bool}
    (h : d.bits = Bits.ofBytes (Varint.encodeGroups T.bits block.val) ++ rest) :
    decodeLongBlock d = .ok ({ d with bits := rest }.advance block.val) := by
  obtain ⟨groups, hgroups⟩ := bits_succ T
  have hsame : Varint.encodeGroups T.bits block.val = Varint.encodeGroups (groups + 1) block.val := by
    generalize block.val = n
    rw [hgroups]
  have hn : block.val < 128 ^ (groups + 1) :=
    hgroups ▸ block.isLt.trans_le (Nat.pow_le_pow_left (by decide) _)
  rw [hsame] at h
  have hfuel : (Varint.encodeGroups (groups + 1) block.val).length ≤ d.bits.length := by
    rw [h, List.length_append, Bits.ofBytes_length]
    omega
  have hread := readSlices_encodeGroups hn hfuel rest
  have hunpack : unpack T (Varint.encodeGroups (groups + 1) block.val) = .ok block := by
    rw [unpack, unpackFrom_encodeGroups hn (by simp) (by simp) (Nat.zero_le _)]
    simp
  rw [← h] at hread
  simp only [decodeLongBlock, hread, hunpack, ok_bind]
  rfl

/-- A block is read back, and its run is replayed. -/
theorem decodeBlock_pushBlock {d : Decoder T} {block : Value T} {rest : List Bool}
    (h : d.bits = pushBlock block ++ rest) :
    decodeBlock d = .ok ({ d with bits := rest }.advance block.val) := by
  unfold pushBlock at h
  by_cases hone : block.val = 1
  · rw [if_pos hone] at h
    rw [decodeBlock_single h, hone]
    rfl
  · rw [if_neg hone] at h
    by_cases hsmall : block.val < 16
    · rw [if_pos hsmall] at h
      rw [decodeBlock_small h, decodeSmallBlock_ofNat hsmall rfl]
    · rw [if_neg hsmall] at h
      rw [decodeBlock_long h, decodeLongBlock_encodeGroups rfl]

/-! ## The stream is read back -/

theorem true_mem_pushBlock (block : Value T) : true ∈ pushBlock block := by
  unfold pushBlock
  by_cases hone : block.val = 1
  · simp [hone]
  · rw [if_neg hone]
    by_cases hsmall : block.val < 16
    · simp [hsmall, pushSmallBlock]
    · -- the first slice of a number that is not zero is not zero
      obtain ⟨groups, hgroups⟩ := bits_succ T
      have hslice : ∃ slice slices, slice ≠ 0 ∧
          Varint.encodeGroups T.bits block.val = slice :: slices := by
        generalize block.val = n at hsmall
        rw [hgroups, Varint.encodeGroups]
        split
        · refine ⟨_, _, fun hzero => ?_, rfl⟩
          have hbyte := Varint.toNat_ofNat_of_lt (show n < 256 by omega)
          rw [hzero, UInt8.toNat_zero] at hbyte
          omega
        · refine ⟨_, _, fun hzero => ?_, rfl⟩
          have hbyte := Varint.toNat_ofNat_of_lt (show n % 128 + 128 < 256 by omega)
          rw [hzero, UInt8.toNat_zero] at hbyte
          omega
      obtain ⟨slice, slices, hne, heq⟩ := hslice
      rw [if_neg hsmall, pushLongBlock, heq, Bits.ofBytes_cons]
      exact List.mem_append_right _ (List.mem_append_left _ (Bits.true_mem_ofByte hne))

/-- Replays the runs one after another. -/
def replay (d : Decoder T) (periods : List (Value T)) : Decoder T :=
  periods.foldl (fun d period => d.advance period.val) d

theorem decodeBlocks_pushBlock {periods : List (Value T)} {d : Decoder T} {fuel pad : ℕ}
    (h : d.bits = periods.flatMap pushBlock ++ List.replicate pad false)
    (hfuel : d.bits.length ≤ fuel) :
    decodeBlocks fuel d = .ok (replay { d with bits := List.replicate pad false } periods) := by
  induction periods generalizing d fuel with
  | nil =>
    have hzeros : true ∉ d.bits := by
      rw [h]
      simp
    have hd : { d with bits := List.replicate pad false } = d := by
      cases d
      cases h
      rfl
    rw [hd]
    cases fuel with
    | zero => rfl
    | succ fuel =>
      rw [decodeBlocks, if_neg hzeros]
      rfl
  | cons period periods ih =>
    have hsplit : d.bits =
        pushBlock period ++ (periods.flatMap pushBlock ++ List.replicate pad false) := by
      rw [h, List.flatMap_cons, List.append_assoc]
    have hmem : true ∈ d.bits := by
      rw [hsplit]
      exact List.mem_append_left _ (true_mem_pushBlock period)
    have hpos : 0 < (pushBlock period).length := List.length_pos_of_mem (true_mem_pushBlock period)
    have hlen := congrArg List.length hsplit
    rw [List.length_append] at hlen
    cases fuel with
    | zero => omega
    | succ fuel =>
      have hrest : (periods.flatMap pushBlock ++ List.replicate pad false).length ≤ fuel := by omega
      rw [decodeBlocks, if_pos hmem, decodeBlock_pushBlock hsplit, ok_bind, ih rfl hrest]
      rfl

/-- What becomes of a stream with a good header. -/
theorem decode_of_header {input : Bytes} {flag : Bool} {bits : List Bool}
    (h : Bits.ofBytes input = [false, false] ++ flag :: bits) (hlen : 2 ≤ bits.length) :
    decode T input = decodeBlocks bits.length ⟨bits, flag, 0, .empty⟩ >>= fun d =>
      if maxSize T < d.output.keys.length then .error .maxSizeExceed else .ok d.output := by
  have hversion : getSpan 2 ([false, false] ++ flag :: bits) = .ok (0, flag :: bits) :=
    getSpan_append _ rfl
  have hlen' : ¬([false, false] ++ flag :: bits).length < 4 := by
    rw [List.length_append, List.length_cons, List.length_cons, List.length_cons]
    omega
  have hflag : decide ((if flag then 1 else 0 : UInt8) = 1) = flag := by cases flag <;> rfl
  rw [decode, h]
  simp only [if_neg hlen']
  show (getSpan 2 ([false, false] ++ flag :: bits) >>= _) = _
  rw [hversion, ok_bind]
  show (getSpan 1 (flag :: bits) >>= _) = _
  rw [getSpan_bit, ok_bind]
  simp only [hflag]
  rfl

/-- The decoder gets at the periods of the set. -/
theorem decode_encode_eq (s : IntSet T) : ∃ zeros, decode T (encode s) =
    let d := replay ⟨zeros, startsAtZero s.keys, 0, .empty⟩ (getPeriods s.keys)
    if maxSize T < d.output.keys.length then .error .maxSizeExceed else .ok d.output := by
  obtain ⟨pad, hpad⟩ := Bits.ofBytes_toBytes (content s)
  refine ⟨List.replicate pad false, ?_⟩
  have hbits : Bits.ofBytes (encode s) = [false, false] ++ startsAtZero s.keys ::
      ((getPeriods s.keys).flatMap pushBlock ++ List.replicate pad false) := by
    rw [encode, hpad, content]
    simp
  generalize hrest : (getPeriods s.keys).flatMap pushBlock ++ List.replicate pad false = rest at hbits
  have hlen : 2 ≤ rest.length := by
    have hbytes := congrArg List.length hbits
    rw [Bits.ofBytes_length, List.length_append, List.length_cons, List.length_cons,
      List.length_cons, List.length_nil] at hbytes
    omega
  have hblocks := decodeBlocks_pushBlock
    (show (⟨rest, startsAtZero s.keys, 0, .empty⟩ : Decoder T).bits = _ from hrest.symm) (le_refl _)
  rw [decode_of_header hbits hlen, hblocks]
  rfl

/-! ## Runs of a sorted list -/

/-- The run of `len` members from `start` on goes on into the list, or a gap ends it. -/
def runsFrom : ℕ → ℕ → List ℕ → List ℕ
  | _, len, [] => [len]
  | start, len, x :: xs =>
    if x = start + len then runsFrom start (len + 1) xs
    else len :: (x - (start + len)) :: runsFrom x 1 xs

/-- The members that runs of alternating polarity stand for. -/
def expand : Bool → ℕ → List ℕ → List ℕ
  | _, _, [] => []
  | true, start, len :: lens => List.range' start len ++ expand false (start + len) lens
  | false, start, len :: lens => expand true (start + len) lens

theorem expand_runsFrom {xs : List ℕ} {start len : ℕ} (hxs : xs.Pairwise (· < ·))
    (hge : ∀ x ∈ xs, start + len ≤ x) :
    expand true start (runsFrom start len xs) = List.range' start len ++ xs := by
  induction xs generalizing start len with
  | nil => simp [runsFrom, expand]
  | cons x xs ih =>
    obtain ⟨hlt, htail⟩ := List.pairwise_cons.mp hxs
    have hx := hge x List.mem_cons_self
    rw [runsFrom]
    by_cases hnext : x = start + len
    · have hge' : ∀ y ∈ xs, start + (len + 1) ≤ y := by
        intro y hy
        have := hlt y hy
        omega
      rw [if_pos hnext, ih htail hge', List.range'_concat, hnext]
      simp
    · have hgap : start + len + (x - (start + len)) = x := by omega
      rw [if_neg hnext, expand, expand, hgap, ih htail fun y hy => hlt y hy]
      rfl

theorem runsFrom_lt {xs : List ℕ} {start len bound : ℕ} (hxs : ∀ x ∈ xs, x < bound)
    (hlen : len + xs.length < bound) : ∀ run ∈ runsFrom start len xs, run < bound := by
  induction xs generalizing start len with
  | nil =>
    intro run hrun
    rw [List.mem_singleton.mp hrun]
    exact hlen
  | cons x xs ih =>
    have htail : ∀ y ∈ xs, y < bound := fun y hy => hxs y (List.mem_cons_of_mem x hy)
    have hx := hxs x List.mem_cons_self
    rw [List.length_cons] at hlen
    intro run hrun
    rw [runsFrom] at hrun
    split at hrun
    · exact ih htail (by omega) run hrun
    · rcases List.mem_cons.mp hrun with rfl | hrun
      · omega
      · rcases List.mem_cons.mp hrun with rfl | hrun
        · omega
        · exact ih htail (by omega) run hrun

theorem runsFrom_range' (start len k : ℕ) :
    runsFrom start len (List.range' (start + len) k) = [len + k] := by
  induction k generalizing len with
  | zero => rfl
  | succ k ih =>
    rw [List.range'_succ, runsFrom, if_pos rfl, Nat.add_assoc, ih]
    congr 1
    omega

/-! ## The periods are the runs -/

theorem incrementBack_append (ps : List (Value T)) (p : Value T) :
    incrementBack (ps ++ [p]) = ps ++ [p + 1] := by
  induction ps with
  | nil => rfl
  | cons q ps ih =>
    cases ps with
    | nil => rfl
    | cons r ps =>
      show q :: incrementBack (r :: ps ++ [p]) = _
      rw [ih]
      rfl

theorem ofNat_add (m n : ℕ) :
    (Fin.ofNat _ m : Value T) + Fin.ofNat _ n = Fin.ofNat _ (m + n) := by
  apply Fin.ext
  simp only [Fin.val_add, Fin.val_ofNat, Nat.add_mod_mod, Nat.mod_add_mod]

theorem ofNat_val (x : Value T) : Fin.ofNat _ x.val = x := Fin.ext (Nat.mod_eq_of_lt x.isLt)

theorem getPeriodsLoop_eq {xs : List (Value T)} {prev : Value T} {ps : List (Value T)} {start len : ℕ}
    (hxs : (prev :: xs).Pairwise (· < ·)) (hprev : prev.val + 1 = start + len) :
    getPeriodsLoop xs prev (ps ++ [Fin.ofNat _ len]) =
      ps ++ (runsFrom start len (xs.map Fin.val)).map (Fin.ofNat _) := by
  induction xs generalizing prev ps start len with
  | nil => rfl
  | cons x xs ih =>
    obtain ⟨hlt, htail⟩ := List.pairwise_cons.mp hxs
    have hx : prev.val < x.val := hlt x List.mem_cons_self
    have hdiff : (x - prev).val = x.val - prev.val := by
      rw [Fin.sub_val_of_le hx.le]
    have hone : (1 : Value T).val = 1 := by cases T <;> rfl
    rw [getPeriodsLoop, List.map_cons, runsFrom]
    by_cases hnext : x.val = start + len
    · have hd : x - prev = 1 := Fin.ext (by omega)
      have hprev' : x.val + 1 = start + (len + 1) := by omega
      rw [if_pos hnext]
      simp only [hd, if_true, lt_irrefl, if_false, incrementBack_append]
      show getPeriodsLoop xs x (ps ++ [Fin.ofNat _ len + Fin.ofNat _ 1]) = _
      rw [ofNat_add, ih htail hprev']
    · have hne : x - prev ≠ 1 := by
        intro h
        have := congrArg Fin.val h
        omega
      have hone_lt : 1 < x - prev := by
        show (1 : Value T).val < (x - prev).val
        omega
      have hgap : x - prev - 1 = Fin.ofNat _ (x.val - (start + len)) := by
        apply Fin.ext
        have hlt : x.val - (start + len) < 2 ^ T.bits := (Nat.sub_le _ _).trans_lt x.isLt
        rw [Fin.sub_val_of_le hone_lt.le, hdiff, hone]
        show _ = (x.val - (start + len)) % 2 ^ T.bits
        rw [Nat.mod_eq_of_lt hlt]
        omega
      have hsplit : ps ++ [Fin.ofNat _ len] ++ [Fin.ofNat _ (x.val - (start + len)), 1] =
          ps ++ [Fin.ofNat _ len, Fin.ofNat _ (x.val - (start + len))] ++
            [(Fin.ofNat _ 1 : Value T)] := by
        rw [List.append_assoc, List.append_assoc]
        rfl
      simp only [if_neg hnext, if_neg hne, if_pos hone_lt, hgap]
      rw [hsplit, ih htail rfl, List.append_assoc]
      rfl

/-- The runs of a whole set: a gap before the first member, if it is not zero, comes first. -/
def runs : List ℕ → List ℕ
  | [] => []
  | x :: xs => (if x = 0 then [] else [x]) ++ runsFrom x 1 xs

theorem getPeriods_eq {xs : List (Value T)} (hxs : xs.Pairwise (· < ·)) :
    getPeriods xs = (runs (xs.map Fin.val)).map (Fin.ofNat _) := by
  cases xs with
  | nil => rfl
  | cons x xs =>
    rw [getPeriods, List.map_cons, runs, List.map_append]
    show getPeriodsLoop xs x (_ ++ [Fin.ofNat _ 1]) = _
    rw [getPeriodsLoop_eq hxs rfl]
    by_cases hzero : x = 0
    · have hval : x.val = 0 := congrArg Fin.val hzero
      rw [if_pos hval, if_neg (not_not.mpr hzero)]
      rfl
    · have hval : x.val ≠ 0 := fun h => hzero (Fin.ext h)
      rw [if_neg hval, if_pos hzero, List.map_singleton, ofNat_val]

theorem expand_runs {xs : List ℕ} (hxs : xs.Pairwise (· < ·)) :
    expand (xs.head? = some 0) 0 (runs xs) = xs := by
  cases xs with
  | nil => rfl
  | cons x xs =>
    obtain ⟨hlt, htail⟩ := List.pairwise_cons.mp hxs
    have hrest : expand true x (runsFrom x 1 xs) = List.range' x 1 ++ xs :=
      expand_runsFrom htail fun y hy => hlt y hy
    rw [runs]
    by_cases hzero : x = 0
    · subst hzero
      simpa using hrest
    · simpa [hzero, expand] using hrest

/-! ## Replaying the runs -/

theorem contains_insertRun (len start : ℕ) (output : IntSet T) (x : Value T) :
    (insertRun len (Fin.ofNat _ start) output).contains x = true ↔
      x ∈ (List.range' start len).map (Fin.ofNat _) ∨ output.contains x = true := by
  induction len generalizing start output with
  | zero => simp [insertRun]
  | succ len ih =>
    rw [insertRun]
    show (insertRun len (Fin.ofNat _ start + Fin.ofNat _ 1) _).contains x = true ↔ _
    rw [ofNat_add, ih, OrdMap.contains_insert, List.range'_succ, List.map_cons, List.mem_cons,
      Bool.or_eq_true, decide_eq_true_iff]
    tauto

theorem contains_replay {lens : List ℕ} (hlens : ∀ len ∈ lens, len < 2 ^ T.bits) {d : Decoder T}
    {start : ℕ} (hstart : d.value = Fin.ofNat _ start) (x : Value T) :
    (replay d (lens.map (Fin.ofNat _))).output.contains x = true ↔
      x ∈ (expand d.magnitude start lens).map (Fin.ofNat _) ∨ d.output.contains x = true := by
  induction lens generalizing d start with
  | nil => simp [replay, expand]
  | cons len lens ih =>
    have hlen : (Fin.ofNat _ len : Value T).val = len :=
      Nat.mod_eq_of_lt (hlens len List.mem_cons_self)
    have hvalue : (d.advance len).value = Fin.ofNat _ (start + len) := by
      show d.value + Fin.ofNat _ len = _
      rw [hstart, ofNat_add]
    have hrest := ih (fun l hl => hlens l (List.mem_cons_of_mem len hl)) hvalue
    have hcons : replay d ((len :: lens).map (Fin.ofNat _)) =
        replay (d.advance len) (lens.map (Fin.ofNat _)) := by
      show replay (d.advance (Fin.ofNat _ len : Value T).val) _ = _
      rw [hlen]
    rw [hcons, hrest]
    cases hm : d.magnitude with
    | false => simp [Decoder.advance, expand, hm]
    | true =>
      simp only [Decoder.advance, expand, hm, if_true, Bool.not_true, hstart, contains_insertRun,
        List.map_append, List.mem_append]
      tauto

/-! ## Round trip -/

theorem keys_sorted (s : IntSet T) : s.keys.Pairwise (· < ·) := List.pairwise_map.mpr s.sorted

theorem vals_sorted (s : IntSet T) : (s.keys.map Fin.val).Pairwise (· < ·) :=
  List.pairwise_map.mpr (keys_sorted s)

theorem startsAtZero_eq (xs : List (Value T)) :
    startsAtZero xs = decide ((xs.map Fin.val).head? = some 0) := by
  cases xs with
  | nil => rfl
  | cons x xs =>
    have hiff : x = 0 ↔ x.val = 0 := ⟨congrArg Fin.val, fun h => Fin.ext h⟩
    show decide (x = 0) = decide (some x.val = some 0)
    rw [decide_eq_decide, hiff, Option.some_inj]

/-- The set of all values. -/
def allValues (T : IntType) : IntSet T where
  entries := (List.finRange (2 ^ T.bits)).map fun x => (x, ())
  sorted := List.pairwise_map.mpr (List.pairwise_lt_finRange _)

/-- Two sets with the same members are the same. -/
theorem ext_contains {s t : IntSet T} (h : ∀ x, s.contains x = true ↔ t.contains x = true) : s = t := by
  apply OrdMap.ext_find?
  intro x
  have hx := h x
  unfold OrdMap.contains at hx
  cases hs : s.find? x <;> cases ht : t.find? x <;> simp_all

theorem runs_lt {xs : List ℕ} {bound : ℕ} (hxs : ∀ x ∈ xs, x < bound) (hlen : xs.length < bound) :
    ∀ run ∈ runs xs, run < bound := by
  cases xs with
  | nil => exact fun _ h => absurd h List.not_mem_nil
  | cons x xs =>
    intro run hrun
    rcases List.mem_append.mp hrun with hrun | hrun
    · split at hrun
      · exact absurd hrun List.not_mem_nil
      · rw [List.mem_singleton.mp hrun]
        exact hxs x List.mem_cons_self
    · have hlen' : 1 + xs.length < bound := by rwa [List.length_cons, Nat.add_comm] at hlen
      exact runsFrom_lt (fun y hy => hxs y (List.mem_cons_of_mem x hy)) hlen' run hrun

/-- With every run below `2^bits` the decoder replays the set. -/
theorem replay_periods (s : IntSet T) (hsize : s.keys.length < 2 ^ T.bits) (zeros : List Bool) :
    (replay ⟨zeros, startsAtZero s.keys, 0, .empty⟩ (getPeriods s.keys)).output = s := by
  apply ext_contains
  intro x
  have hruns : ∀ len ∈ runs (s.keys.map Fin.val), len < 2 ^ T.bits := by
    apply runs_lt
    · intro v hv
      obtain ⟨y, -, rfl⟩ := List.mem_map.mp hv
      exact y.isLt
    · rwa [List.length_map]
  have hstart : (⟨zeros, startsAtZero s.keys, 0, .empty⟩ : Decoder T).value = Fin.ofNat _ 0 := rfl
  rw [getPeriods_eq (keys_sorted s), contains_replay hruns hstart]
  show x ∈ (expand (startsAtZero s.keys) 0 _).map _ ∨ _ ↔ _
  rw [startsAtZero_eq, expand_runs (vals_sorted s), List.map_map]
  have hmap : s.keys.map (Fin.ofNat (2 ^ T.bits) ∘ Fin.val) = s.keys := by
    rw [List.map_congr_left fun y _ => show (Fin.ofNat _ ∘ Fin.val) y = id y from ofNat_val y,
      List.map_id]
  rw [hmap, OrdMap.mem_keys_iff]
  show _ ∨ false = true ↔ _
  simp [OrdMap.contains]

/-- The periods of the set of all values: their number wraps to zero. -/
theorem getPeriods_full {xs : List (Value T)} (hxs : xs.Pairwise (· < ·))
    (hfull : xs.length = 2 ^ T.bits) : getPeriods xs = [0] := by
  have hnodup : xs.Nodup := hxs.imp fun h => ne_of_lt h
  have huniv : xs.toFinset = Finset.univ := by
    apply Finset.eq_univ_of_card
    rw [List.toFinset_card_of_nodup hnodup, hfull, Fintype.card_fin]
  have hall : xs = List.finRange (2 ^ T.bits) := by
    apply hxs.eq_of_mem_iff (List.pairwise_lt_finRange _)
    intro x
    rw [← List.mem_toFinset, huniv]
    simp
  obtain ⟨k, hk⟩ := Nat.exists_eq_succ_of_ne_zero (Nat.two_pow_pos T.bits).ne'
  have hruns : runs (List.range (2 ^ T.bits)) = [2 ^ T.bits] := by
    rw [hk, List.range_eq_range', List.range'_succ, runs, if_pos rfl, List.nil_append]
    show runsFrom 0 1 (List.range' (0 + 1) k) = _
    rw [runsFrom_range', Nat.add_comm]
  rw [getPeriods_eq hxs, hall, List.map_coe_finRange_eq_range, hruns]
  show [Fin.ofNat (2 ^ T.bits) (2 ^ T.bits)] = [0]
  rw [List.singleton_inj]
  exact Fin.ext (Nat.mod_self _)

/-- **Round trip.** A set within the decoder's size limit comes back if and only if it does not
contain every value of the type. -/
theorem decode_encode (s : IntSet T) (hsize : s.keys.length ≤ maxSize T) :
    decode T (encode s) = .ok s ↔ s.keys.length ≠ 2 ^ T.bits := by
  obtain ⟨zeros, hdecode⟩ := decode_encode_eq s
  constructor
  · intro hback hfull
    have hempty : (replay ⟨zeros, startsAtZero s.keys, 0, .empty⟩ [(0 : Value T)]).output = .empty := by
      show (if startsAtZero s.keys then insertRun 0 0 .empty else .empty) = (.empty : IntSet T)
      rw [insertRun, ite_self]
    rw [hdecode, getPeriods_full (keys_sorted s) hfull] at hback
    simp only [hempty] at hback
    rw [if_neg (by exact Nat.not_lt_zero _), Except.ok.injEq] at hback
    have hpos := Nat.two_pow_pos T.bits
    rw [← hfull, ← hback] at hpos
    exact absurd hpos (lt_irrefl 0)
  · intro hne
    have hnodup : s.keys.Nodup := (keys_sorted s).imp fun h => ne_of_lt h
    have hle : s.keys.length ≤ 2 ^ T.bits := by
      simpa using hnodup.length_le_card
    rw [hdecode]
    simp only [replay_periods s (lt_of_le_of_ne hle hne)]
    rw [if_neg hsize.not_gt]

theorem few_values_back :
    (OrdMap.empty.insert 255 () |>.insert 0 () : IntSet .uint8).keys.length ≤ maxSize .uint8 ∧
      decode .uint8 (encode (OrdMap.empty.insert 255 () |>.insert 0 () : IntSet .uint8)) =
        .ok (OrdMap.empty.insert 255 () |>.insert 0 ()) := by
  have hsize : (OrdMap.empty.insert 255 () |>.insert 0 () : IntSet .uint8).keys.length ≤
    maxSize .uint8 := by decide
  exact ⟨hsize, (decode_encode _ hsize).mpr (by decide)⟩

/-- All bytes make one run, whose length wraps to zero: the empty set comes back. -/
theorem all_bytes_lost : (allValues .uint8).keys.length ≤ maxSize .uint8 ∧
    decode .uint8 (encode (allValues .uint8)) = .ok .empty ∧
    decode .uint8 (encode (allValues .uint8)) ≠ .ok (allValues .uint8) := by
  have hbytes : encode (allValues .uint8) = [20, 0] := by decide +kernel
  have hempty : decode .uint8 [20, 0] = .ok .empty := rfl
  rw [hbytes, hempty]
  refine ⟨by decide +kernel, rfl, fun h => ?_⟩
  have hlen := congrArg (fun s : IntSet .uint8 => s.keys.length) (Except.ok.inj h)
  revert hlen
  decide +kernel

end RlePlus
end IpfsLite.Codec
