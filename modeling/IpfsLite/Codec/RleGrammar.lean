import IpfsLite.Codec.RlePlus

/-! # The sets RLE+ streams stand for

The grammar of the stream over unbounded naturals: a header, blocks of any length, and zeros to fill
up the last bytes. The decoder computes in the element type, so a length or a position that does not
fit is cut off; the main result says on which streams that does not show. -/
namespace IpfsLite.Codec.RlePlus
set_option autoImplicit false

/-! ## Grammar -/

/-- A LEB128 number as it is written: seven bits a group, any number of groups. -/
inductive Leb128
  | last (group : Fin 128)
  | more (group : Fin 128) (rest : Leb128)
deriving DecidableEq, Repr

namespace Leb128

def value : Leb128 → ℕ
  | last group => group.val
  | more group rest => group.val + 128 * rest.value

def bytes : Leb128 → Bytes
  | last group => [UInt8.ofNat group.val]
  | more group rest => UInt8.ofNat (group.val + 128) :: rest.bytes

/-- The groups above the first one. -/
def extra : Leb128 → ℕ
  | last _ => 0
  | more _ rest => rest.extra + 1

end Leb128

inductive Block
  | single
  | small (length : Fin 16)
  | long (length : Leb128)
deriving DecidableEq, Repr

namespace Block

def bits : Block → List Bool
  | single => [true]
  | small length => [false, true] ++ Bits.ofNat 4 length.val
  | long length => [false, false] ++ Bits.ofBytes length.bytes

def length : Block → ℕ
  | single => 1
  | small length => length.val
  | long length => length.value

/-- `unpack` refuses the block: a byte starts above the width of the type. -/
def Overlong (T : IntType) : Block → Prop
  | long length => T.bits < 7 * length.extra
  | _ => False

instance (T : IntType) (b : Block) : Decidable (b.Overlong T) := by
  cases b <;> unfold Overlong <;> infer_instance

end Block

/-- The runs of a stream, without their padding. -/
structure Reading (input : Bytes) where
  polarity : Bool
  blocks : List Block
  padding : ℕ
  reads : Bits.ofBytes input =
    [false, false, polarity] ++ (blocks.flatMap Block.bits ++ List.replicate padding false)

variable {T : IntType}

instance neZero_values (T : IntType) : NeZero (2 ^ T.bits) := ⟨(Nat.two_pow_pos T.bits).ne'⟩

namespace Reading

variable {input : Bytes}

def runs (r : Reading input) : List ℕ := r.blocks.map Block.length

/-- The set the stream denotes, in ascending order. -/
def members (r : Reading input) : List ℕ := expand r.polarity 0 r.runs

/-- Run lengths and positions are values of the type. -/
def Fits (T : IntType) (r : Reading input) : Prop :=
  (∀ run ∈ r.runs, run < 2 ^ T.bits) ∧ ∀ n ∈ r.members, n < 2 ^ T.bits

/-- What is left of the set when lengths and positions are cut off to the type. -/
def truncated (T : IntType) (r : Reading input) : Finset (Value T) :=
  ((expand r.polarity 0 (r.runs.map (· % 2 ^ T.bits))).map (Fin.ofNat _)).toFinset

/-- The decoder refuses the stream: a length has too many bytes, or there are too many members. -/
def Refused (T : IntType) (r : Reading input) : Prop :=
  (∃ b ∈ r.blocks, b.Overlong T) ∨ maxSize T < (r.truncated T).card

end Reading

/-- A decoded set is the one that the stream denotes, and nothing of the stream was cut off. -/
def Sound (T : IntType) (input : Bytes) : Prop :=
  ∀ s, decode T input = .ok s → Nonempty (Reading input) ∧
    ∀ r : Reading input, r.Fits T ∧ s.keys.map Fin.val = r.members

/-! ## The grammar is unambiguous -/

theorem zero_of_no_bit (n : Leb128) (h : true ∉ Bits.ofBytes n.bytes) : n.value = 0 := by
  cases n with
  | last group =>
    rw [Leb128.bytes, Bits.ofBytes_singleton] at h
    by_contra hne
    have hbyte := Varint.toNat_ofNat_of_lt (show group.val < 256 by omega)
    refine h (Bits.true_mem_ofByte fun hzero => hne ?_)
    rw [hzero] at hbyte
    exact hbyte.symm
  | more group rest =>
    rw [Leb128.bytes, Bits.ofBytes_cons, List.mem_append, not_or] at h
    have hbyte := Varint.toNat_ofNat_of_lt (show group.val + 128 < 256 by omega)
    refine absurd (Bits.true_mem_ofByte fun hzero => ?_) h.1
    rw [hzero, UInt8.toNat_zero] at hbyte
    omega

theorem length_of_no_bit {b : Block} (h : true ∉ b.bits) : b.length = 0 := by
  cases b with
  | single => simp [Block.bits] at h
  | small length => simp [Block.bits] at h
  | long length =>
    apply zero_of_no_bit
    intro hmem
    exact h (List.mem_append_right _ hmem)

theorem not_overlong_of_no_bit {b : Block} (h : true ∉ b.bits) : ¬b.Overlong T := by
  cases b with
  | single => exact not_false
  | small length => exact not_false
  | long length =>
    cases length with
    | last group => exact Nat.not_lt_zero _
    | more group rest =>
      refine absurd (List.mem_append_right _ ?_) h
      rw [Leb128.bytes, Bits.ofBytes_cons]
      refine List.mem_append_left _ (Bits.true_mem_ofByte fun hzero => ?_)
      have hbyte := Varint.toNat_ofNat_of_lt (show group.val + 128 < 256 by omega)
      rw [hzero, UInt8.toNat_zero] at hbyte
      omega

theorem expand_zeros {lens : List ℕ} (h : ∀ len ∈ lens, len = 0) (polarity : Bool) (start : ℕ) :
    expand polarity start lens = [] := by
  induction lens generalizing polarity start with
  | nil => cases polarity <;> rfl
  | cons len lens ih =>
    have htail : ∀ l ∈ lens, l = 0 := fun l hl => h l (List.mem_cons_of_mem len hl)
    have hzero := h len List.mem_cons_self
    cases polarity <;> simp [expand, hzero, ih htail]

theorem ofByte_append_inj {b c : UInt8} {x y : List Bool}
    (h : Bits.ofByte b ++ x = Bits.ofByte c ++ y) : b = c ∧ x = y := by
  have hlen : (Bits.ofByte b).length = (Bits.ofByte c).length := by
    rw [Bits.ofByte, Bits.ofByte, Bits.ofNat_length, Bits.ofNat_length]
  obtain ⟨hbyte, hrest⟩ := List.append_inj h hlen
  exact ⟨Bits.ofByte_inj hbyte, hrest⟩

/-- No number is the beginning of another. -/
theorem bytes_append_inj {m n : Leb128} {x y : List Bool}
    (h : Bits.ofBytes m.bytes ++ x = Bits.ofBytes n.bytes ++ y) : m = n ∧ x = y := by
  induction m generalizing n with
  | last group =>
    have hlow := Varint.toNat_ofNat_of_lt (show group.val < 256 by omega)
    cases n with
    | last group' =>
      have hlow' := Varint.toNat_ofNat_of_lt (show group'.val < 256 by omega)
      simp only [Leb128.bytes, Bits.ofBytes_singleton] at h
      obtain ⟨hbyte, hrest⟩ := ofByte_append_inj h
      have hsame : group = group' := Fin.ext (by rw [← hlow, ← hlow', hbyte])
      exact ⟨congrArg Leb128.last hsame, hrest⟩
    | more group' rest' =>
      have hhigh' := Varint.toNat_ofNat_of_lt (show group'.val + 128 < 256 by omega)
      simp only [Leb128.bytes, Bits.ofBytes_cons, List.append_assoc] at h
      rw [(ofByte_append_inj h).1] at hlow
      omega
  | more group rest ih =>
    have hhigh := Varint.toNat_ofNat_of_lt (show group.val + 128 < 256 by omega)
    cases n with
    | last group' =>
      have hlow' := Varint.toNat_ofNat_of_lt (show group'.val < 256 by omega)
      simp only [Leb128.bytes, Bits.ofBytes_cons, List.append_assoc] at h
      rw [(ofByte_append_inj h).1] at hhigh
      omega
    | more group' rest' =>
      have hhigh' := Varint.toNat_ofNat_of_lt (show group'.val + 128 < 256 by omega)
      simp only [Leb128.bytes, Bits.ofBytes_cons, List.append_assoc] at h
      obtain ⟨hbyte, htail⟩ := ofByte_append_inj h
      obtain ⟨hrest, hxy⟩ := ih htail
      have hsame : group = group' := by
        rw [hbyte] at hhigh
        exact Fin.ext (by omega)
      exact ⟨by rw [hsame, hrest], hxy⟩

theorem bits_append_inj {b c : Block} {x y : List Bool} (h : b.bits ++ x = c.bits ++ y) :
    b = c ∧ x = y := by
  cases b <;> cases c <;> simp only [Block.bits, List.cons_append, List.nil_append,
    List.cons.injEq, reduceCtorEq, true_and, false_and, and_false] at h
  · exact ⟨rfl, h⟩
  · rename_i m n
    have hlen : (Bits.ofNat 4 m.val).length = (Bits.ofNat 4 n.val).length := by
      rw [Bits.ofNat_length, Bits.ofNat_length]
    obtain ⟨hbits, hrest⟩ := List.append_inj h hlen
    have hval := congrArg Bits.toNat hbits
    rw [Bits.toNat_ofNat m.isLt, Bits.toNat_ofNat n.isLt] at hval
    exact ⟨congrArg Block.small (Fin.ext hval), hrest⟩
  · obtain ⟨hlen, hrest⟩ := bytes_append_inj h
    exact ⟨congrArg Block.long hlen, hrest⟩

/-- Blocks that are made of zeros only are runs of no length: they may be read as padding. -/
theorem lengths_of_no_bit {blocks : List Block} (h : true ∉ blocks.flatMap Block.bits) :
    ∀ len ∈ blocks.map Block.length, len = 0 := by
  intro len hlen
  obtain ⟨b, hb, rfl⟩ := List.mem_map.mp hlen
  apply length_of_no_bit
  intro hbit
  exact h (List.mem_flatMap.mpr ⟨b, hb, hbit⟩)

theorem no_bit_of_eq_padding {bits rest : List Bool} {padding : ℕ}
    (h : bits ++ rest = List.replicate padding false) : true ∉ bits := by
  intro hbit
  have hmem : true ∈ List.replicate padding false := h ▸ List.mem_append_left rest hbit
  exact absurd (List.eq_of_mem_replicate hmem) (by decide)

theorem expand_unique {blocks blocks' : List Block} {padding padding' : ℕ}
    (h : blocks.flatMap Block.bits ++ List.replicate padding false =
      blocks'.flatMap Block.bits ++ List.replicate padding' false) (polarity : Bool) (start : ℕ) :
    expand polarity start (blocks.map Block.length) =
      expand polarity start (blocks'.map Block.length) := by
  induction blocks generalizing blocks' polarity start with
  | nil =>
    have hzeros := lengths_of_no_bit (no_bit_of_eq_padding h.symm)
    rw [expand_zeros hzeros, List.map_nil, expand_zeros fun _ hl => absurd hl List.not_mem_nil]
  | cons b blocks ih =>
    cases blocks' with
    | nil =>
      have hzeros := lengths_of_no_bit (no_bit_of_eq_padding h)
      rw [expand_zeros hzeros, List.map_nil, expand_zeros fun _ hl => absurd hl List.not_mem_nil]
    | cons b' blocks' =>
      rw [List.flatMap_cons, List.flatMap_cons, List.append_assoc, List.append_assoc] at h
      obtain ⟨rfl, hrest⟩ := bits_append_inj h
      cases polarity <;> simp only [List.map_cons, expand, ih hrest]

/-- A stream denotes one set, however its last zeros are read. -/
theorem Reading.members_unique {input : Bytes} (r r' : Reading input) : r.members = r'.members := by
  have h := r.reads.symm.trans r'.reads
  simp only [List.cons_append, List.nil_append, List.cons.injEq, true_and] at h
  rw [members, members, runs, runs, h.1]
  exact expand_unique h.2 r'.polarity 0

/-! ## What the decoder reads -/

theorem getSpan_ok {count : ℕ} {bits rest : List Bool} {v : UInt8}
    (h : getSpan count bits = .ok (v, rest)) :
    ∃ span, span.length = count ∧ bits = span ++ rest ∧ v = UInt8.ofNat (Bits.toNat span) := by
  unfold getSpan at h
  split at h
  · cases h
  · rename_i hlen
    cases h
    refine ⟨bits.take count, ?_, (List.take_append_drop count bits).symm, rfl⟩
    rw [List.length_take]
    omega

theorem ofByte_ofNat_toNat {span : List Bool} (h : span.length = 8) :
    Bits.ofByte (UInt8.ofNat (Bits.toNat span)) = span := by
  have hlt := Bits.toNat_lt span
  have hback := Bits.ofNat_toNat span 0
  rw [h] at hlt hback
  rw [Bits.ofByte_ofNat hlt, hback, List.replicate_zero, List.append_nil]

theorem readSlices_ok {fuel : ℕ} {bits rest : List Bool} {slices : Bytes}
    (h : readSlices fuel bits = .ok (slices, rest)) :
    ∃ n : Leb128, slices = n.bytes ∧ bits = Bits.ofBytes n.bytes ++ rest := by
  induction fuel generalizing bits slices rest with
  | zero => cases h
  | succ fuel ih =>
    cases hspan : getSpan 8 bits with
    | error e => simp [readSlices, hspan, bind, Except.bind] at h
    | ok r =>
      obtain ⟨slice, bits'⟩ := r
      obtain ⟨span, hlen, hbits, rfl⟩ := getSpan_ok hspan
      rw [readSlices, hspan, ok_bind] at h
      generalize hslice : UInt8.ofNat (Bits.toNat span) = slice at h
      have hspan' : span = Bits.ofByte slice := by rw [← hslice, ofByte_ofNat_toNat hlen]
      by_cases hlast : slice.toNat < 128
      · have hback : UInt8.ofNat slice.toNat = slice := by simp
        simp only [if_pos hlast, pure, Except.pure, Except.ok.injEq, Prod.mk.injEq] at h
        refine ⟨.last ⟨slice.toNat, hlast⟩, ?_, ?_⟩
        · rw [Leb128.bytes, hback, h.1]
        · rw [Leb128.bytes, hback, Bits.ofBytes_singleton, hbits, hspan', h.2]
      · simp only [if_neg hlast] at h
        cases hrec : readSlices fuel bits' with
        | error e => simp [hrec, bind, Except.bind] at h
        | ok r =>
          obtain ⟨slices', rest'⟩ := r
          rw [hrec, ok_bind] at h
          simp only [pure, Except.pure, Except.ok.injEq, Prod.mk.injEq] at h
          obtain ⟨n, hn, htail⟩ := ih hrec
          have hgroup : slice.toNat - 128 < 128 := by
            have := slice.toNat_lt
            omega
          have hback : UInt8.ofNat (slice.toNat - 128 + 128) = slice := by
            rw [Nat.sub_add_cancel (by omega)]
            simp
          refine ⟨.more ⟨slice.toNat - 128, hgroup⟩ n, ?_, ?_⟩
          · rw [Leb128.bytes, hback, ← h.1, hn]
          · rw [Leb128.bytes, hback, Bits.ofBytes_cons, List.append_assoc, hbits, hspan', htail, h.2]

theorem readSlices_bytes {fuel : ℕ} (n : Leb128) (hfuel : n.bytes.length ≤ fuel) (rest : List Bool) :
    readSlices fuel (Bits.ofBytes n.bytes ++ rest) = .ok (n.bytes, rest) := by
  induction n generalizing fuel with
  | last group => exact readSlices_last group.isLt hfuel rest
  | more group tail ih =>
    have hbyte := Varint.toNat_ofNat_of_lt (show group.val + 128 < 256 by omega)
    obtain ⟨fuel, rfl⟩ := Nat.exists_eq_succ_of_ne_zero (Nat.lt_of_lt_of_le (Nat.succ_pos _) hfuel).ne'
    rw [Leb128.bytes, readSlices, Bits.ofBytes_cons, List.append_assoc, getSpan_ofByte, ok_bind]
    show (if (UInt8.ofNat (group.val + 128)).toNat < 128 then _ else _) = _
    rw [hbyte, if_neg (by omega), ih (Nat.le_of_succ_le_succ hfuel)]
    rfl

/-- The number modulo the width of the type, or the refusal of a byte above it. -/
theorem unpackFrom_bytes (n : Leb128) {value : Value T} {shift : ℕ} (hvalue : value.val < 2 ^ shift)
    (hshift : shift ≤ T.bits) :
    unpackFrom n.bytes value shift =
      if T.bits < shift + 7 * n.extra then .error .unpackOverflow
      else .ok (Fin.ofNat _ (n.value * 2 ^ shift + value.val)) := by
  induction n generalizing value shift with
  | last group =>
    rw [Leb128.bytes, unpackFrom_last group.isLt hvalue hshift, Leb128.extra, if_neg (by omega)]
    rfl
  | more group rest ih =>
    have hbyte := Varint.toNat_ofNat_of_lt (show group.val + 128 < 256 by omega)
    have hmod : (group.val + 128) % 128 = group.val := by omega
    have hpow : 2 ^ (shift + 7) = 128 * 2 ^ shift := by rw [Nat.pow_add, Nat.mul_comm]
    rw [Leb128.bytes, unpackFrom, hbyte, if_neg (by omega), if_neg (by omega), hmod,
      or_slice hvalue, Leb128.extra]
    by_cases hnext : shift + 7 ≤ T.bits
    · have hlow : group.val * 2 ^ shift + value.val < 2 ^ (shift + 7) := by
        have hgroup : group.val * 2 ^ shift ≤ 127 * 2 ^ shift := Nat.mul_le_mul_right _ (by omega)
        omega
      obtain ⟨next, hnextValue, hval⟩ : ∃ next : Value T,
          next = Fin.ofNat _ (group.val * 2 ^ shift + value.val) ∧
            next.val = group.val * 2 ^ shift + value.val :=
        ⟨_, rfl, Nat.mod_eq_of_lt (hlow.trans_le (Nat.pow_le_pow_right (by decide) hnext))⟩
      rw [← hnextValue, ih (by omega) hnext, hval]
      have hsum : rest.value * 2 ^ (shift + 7) + (group.val * 2 ^ shift + value.val) =
          (group.val + 128 * rest.value) * 2 ^ shift + value.val := by
        rw [hpow]
        ring
      rw [hsum, Nat.add_assoc, Nat.mul_add, Nat.add_comm (7 * rest.extra)]
      rfl
    · -- the next byte would start above the type, and there is a next byte
      have hover : T.bits < shift + 7 * (rest.extra + 1) := by omega
      rw [if_pos hover]
      cases rest <;> rw [Leb128.bytes, unpackFrom, if_pos (by omega)]

theorem unpack_bytes (n : Leb128) :
    unpack T n.bytes = if T.bits < 7 * n.extra then .error .unpackOverflow
      else .ok (Fin.ofNat _ n.value) := by
  rw [unpack, unpackFrom_bytes n (by simp) (Nat.zero_le _), Nat.zero_add]
  simp

theorem decodeLongBlock_bytes {d : Decoder T} {n : Leb128} {rest : List Bool}
    (h : d.bits = Bits.ofBytes n.bytes ++ rest) :
    decodeLongBlock d = if T.bits < 7 * n.extra then .error .unpackOverflow
      else .ok ({ d with bits := rest }.advance (Fin.ofNat _ n.value : Value T).val) := by
  have hfuel : n.bytes.length ≤ d.bits.length := by
    rw [h, List.length_append, Bits.ofBytes_length]
    omega
  have hread := readSlices_bytes n hfuel rest
  rw [← h] at hread
  simp only [decodeLongBlock, hread, unpack_bytes, ok_bind]
  split <;> rfl

theorem advance_mod (d : Decoder T) (length : ℕ) :
    d.advance (Fin.ofNat _ length : Value T).val =
      ⟨d.bits, !d.magnitude, d.value + Fin.ofNat _ length,
        if d.magnitude then insertRun (length % 2 ^ T.bits) d.value d.output else d.output⟩ := by
  have hval : (Fin.ofNat _ (Fin.ofNat (2 ^ T.bits) length).val : Value T) = Fin.ofNat _ length :=
    ofNat_val _
  rw [Decoder.advance, hval]
  rfl

theorem advance_of_lt (d : Decoder T) {length : ℕ} (h : length < 2 ^ T.bits) :
    d.advance length = d.advance (Fin.ofNat _ length : Value T).val := by
  rw [advance_mod, Decoder.advance, Nat.mod_eq_of_lt h]

theorem sixteen_lt (T : IntType) : 16 < 2 ^ T.bits := by cases T <;> decide

/-- A block is read whole, and its run is cut off to the type and replayed. -/
theorem decodeBlock_bits {d : Decoder T} (b : Block) {rest : List Bool} (h : d.bits = b.bits ++ rest) :
    decodeBlock d = if b.Overlong T then .error .unpackOverflow
      else .ok ({ d with bits := rest }.advance (Fin.ofNat _ b.length : Value T).val) := by
  have hsixteen := sixteen_lt T
  cases b with
  | single =>
    rw [decodeBlock_single h, decodeSingleBlock, if_neg (by exact not_false)]
    exact congrArg Except.ok (advance_of_lt _ (by omega))
  | small length =>
    rw [decodeBlock_small h, decodeSmallBlock_ofNat length.isLt rfl, if_neg (by exact not_false)]
    exact congrArg Except.ok (advance_of_lt _ (by omega))
  | long length =>
    rw [decodeBlock_long h, decodeLongBlock_bytes rfl]
    rfl

theorem bind_ok {α β : Type} {x : Except DecodeError α} {f : α → Except DecodeError β} {b : β}
    (h : (x >>= f) = .ok b) : ∃ a, x = .ok a ∧ f a = .ok b := by
  cases x with
  | error e => cases h
  | ok a => exact ⟨a, rfl, h⟩

theorem decodeSmallBlock_ok {d d' : Decoder T} (h : decodeSmallBlock d = .ok d') :
    ∃ n : Fin 16, d.bits = Bits.ofNat 4 n.val ++ d'.bits := by
  obtain ⟨⟨v, rest⟩, hspan, hd'⟩ := bind_ok h
  obtain ⟨span, hlen, hbits, -⟩ := getSpan_ok hspan
  have hlt := Bits.toNat_lt span
  have hback := Bits.ofNat_toNat span 0
  rw [hlen] at hlt hback
  rw [List.replicate_zero, List.append_nil] at hback
  cases hd'
  exact ⟨⟨Bits.toNat span, hlt⟩, hbits.trans (congrArg (· ++ rest) hback.symm)⟩

theorem decodeLongBlock_ok {d d' : Decoder T} (h : decodeLongBlock d = .ok d') :
    ∃ n : Leb128, d.bits = Bits.ofBytes n.bytes ++ d'.bits := by
  obtain ⟨⟨slices, rest⟩, hslices, h⟩ := bind_ok h
  obtain ⟨length, -, hd'⟩ := bind_ok h
  obtain ⟨n, -, hbits⟩ := readSlices_ok hslices
  cases hd'
  exact ⟨n, hbits⟩

/-- Whatever a step of the decoder accepts is a block of the grammar. -/
theorem decodeBlock_ok {d d' : Decoder T} (h : decodeBlock d = .ok d') :
    ∃ b : Block, d.bits = b.bits ++ d'.bits := by
  cases hbits : d.bits with
  | nil => simp [decodeBlock, hbits, getSpan, bind, Except.bind] at h
  | cons first rest =>
    cases first with
    | true =>
      rw [decodeBlock_single hbits] at h
      cases h
      exact ⟨.single, rfl⟩
    | false =>
      cases rest with
      | nil => simp [decodeBlock, hbits, getSpan, bind, Except.bind, Bits.toNat] at h
      | cons second rest =>
        cases second with
        | true =>
          rw [decodeBlock_small hbits] at h
          obtain ⟨n, hn⟩ := decodeSmallBlock_ok h
          exact ⟨.small n, congrArg (fun bits => false :: true :: bits) hn⟩
        | false =>
          rw [decodeBlock_long hbits] at h
          obtain ⟨n, hn⟩ := decodeLongBlock_ok h
          exact ⟨.long n, congrArg (fun bits => false :: false :: bits) hn⟩

theorem decodeBlocks_ok {fuel : ℕ} {d d' : Decoder T} (hfuel : d.bits.length ≤ fuel)
    (h : decodeBlocks fuel d = .ok d') :
    ∃ (blocks : List Block) (padding : ℕ),
      d.bits = blocks.flatMap Block.bits ++ List.replicate padding false := by
  induction fuel generalizing d with
  | zero => exact ⟨[], 0, List.eq_nil_of_length_eq_zero (Nat.le_zero.mp hfuel)⟩
  | succ fuel ih =>
    rw [decodeBlocks] at h
    by_cases hmem : true ∈ d.bits
    · rw [if_pos hmem] at h
      obtain ⟨next, hnext, h⟩ := bind_ok h
      obtain ⟨b, hb⟩ := decodeBlock_ok hnext
      have hpos : 0 < b.bits.length := by cases b <;> simp [Block.bits]
      have hlen := congrArg List.length hb
      rw [List.length_append] at hlen
      obtain ⟨blocks, padding, hrest⟩ := ih (by omega) h
      exact ⟨b :: blocks, padding, by rw [hb, hrest, List.flatMap_cons, List.append_assoc]⟩
    · refine ⟨[], d.bits.length, List.eq_replicate_iff.mpr ⟨rfl, ?_⟩⟩
      intro bit hbit
      cases bit with
      | false => rfl
      | true => exact absurd hbit hmem

/-! ## What becomes of a stream -/

/-- The run lengths as the decoder has them. -/
def periods (T : IntType) (blocks : List Block) : List (Value T) :=
  blocks.map fun b => Fin.ofNat _ b.length

theorem replay_zeros {blocks : List Block} (h : true ∉ blocks.flatMap Block.bits) (d : Decoder T) :
    (replay d (periods T blocks)).output = d.output := by
  induction blocks generalizing d with
  | nil => rfl
  | cons b blocks ih =>
    rw [List.flatMap_cons, List.mem_append, not_or] at h
    have hlen : (Fin.ofNat _ b.length : Value T).val = 0 := by
      rw [length_of_no_bit h.1]
      rfl
    show (replay (d.advance (Fin.ofNat _ b.length : Value T).val) (periods T blocks)).output = _
    rw [hlen, ih h.2, Decoder.advance, insertRun, ite_self]

theorem replay_bits (d : Decoder T) (bits : List Bool) (lens : List (Value T)) :
    (replay { d with bits := bits } lens).output = (replay d lens).output := by
  induction lens generalizing d with
  | nil => rfl
  | cons len lens ih => exact ih (d.advance len.val)

/-- The outcome of the loop: the first overlong block ends it. -/
def Outcome (blocks : List Block) (d : Decoder T) (result : Except DecodeError (Decoder T)) : Prop :=
  ((∃ b ∈ blocks, b.Overlong T) ∧ result = .error .unpackOverflow) ∨
    (∀ b ∈ blocks, ¬b.Overlong T) ∧
      ∃ d', result = .ok d' ∧ d'.output = (replay d (periods T blocks)).output

theorem outcome_of_no_bit {blocks : List Block} (h : true ∉ blocks.flatMap Block.bits) (d : Decoder T) :
    Outcome blocks d (.ok d) := by
  refine .inr ⟨?_, d, rfl, (replay_zeros h d).symm⟩
  intro b hb
  apply not_overlong_of_no_bit
  intro hbit
  exact h (List.mem_flatMap.mpr ⟨b, hb, hbit⟩)

theorem decodeBlocks_stream {blocks : List Block} {d : Decoder T} {fuel padding : ℕ}
    (h : d.bits = blocks.flatMap Block.bits ++ List.replicate padding false)
    (hfuel : d.bits.length ≤ fuel) : Outcome blocks d (decodeBlocks fuel d) := by
  induction fuel generalizing d blocks with
  | zero =>
    have hnil := List.append_eq_nil_iff.mp
      (h.symm.trans (List.eq_nil_of_length_eq_zero (Nat.le_zero.mp hfuel)))
    apply outcome_of_no_bit
    rw [hnil.1]
    exact List.not_mem_nil
  | succ fuel ih =>
    rw [decodeBlocks]
    by_cases hmem : true ∈ d.bits
    · rw [if_pos hmem]
      cases blocks with
      | nil =>
        rw [h] at hmem
        exact absurd (List.eq_of_mem_replicate hmem) (by decide)
      | cons b blocks =>
        rw [List.flatMap_cons, List.append_assoc] at h
        rw [decodeBlock_bits b h]
        by_cases hlong : b.Overlong T
        · rw [if_pos hlong]
          exact .inl ⟨⟨b, List.mem_cons_self, hlong⟩, rfl⟩
        · rw [if_neg hlong, ok_bind]
          have hpos : 0 < b.bits.length := by cases b <;> simp [Block.bits]
          have hlen := congrArg List.length h
          rw [List.length_append] at hlen
          have hrest : (blocks.flatMap Block.bits ++ List.replicate padding false).length ≤ fuel := by
            omega
          rcases ih (d := Decoder.advance { d with bits := _ } _) (rfl : _ = blocks.flatMap Block.bits ++ _) hrest with
            ⟨⟨c, hc, hcl⟩, hresult⟩ | ⟨hnone, d', hresult, hout⟩
          · exact .inl ⟨⟨c, List.mem_cons_of_mem b hc, hcl⟩, hresult⟩
          · refine .inr ⟨?_, d', hresult, hout.trans (replay_bits d _ (periods T (b :: blocks)))⟩
            intro c hc
            rcases List.mem_cons.mp hc with rfl | hc
            · exact hlong
            · exact hnone c hc
    · rw [if_neg hmem]
      apply outcome_of_no_bit
      intro hbit
      rw [h] at hmem
      exact hmem (List.mem_append_left _ hbit)

/-! ## Soundness -/

theorem decode_ok_header {input : Bytes} {s : IntSet T} (h : decode T input = .ok s) :
    ∃ flag rest, Bits.ofBytes input = [false, false] ++ flag :: rest ∧ 2 ≤ rest.length := by
  have hlen : (Bits.ofBytes input).length = 8 * input.length := Bits.ofBytes_length input
  rw [decode] at h
  by_cases hshort : (Bits.ofBytes input).length < 4
  · simp only [if_pos hshort] at h
    cases h
  · simp only [if_neg hshort] at h
    obtain ⟨-, -, h⟩ := bind_ok h
    obtain ⟨⟨version, rest⟩, hversion, h⟩ := bind_ok h
    obtain ⟨span, hspan, hbits, rfl⟩ := getSpan_ok hversion
    by_cases hzero : UInt8.ofNat (Bits.toNat span) = 0
    · have hlen' := congrArg List.length hbits
      rw [List.length_append, hspan] at hlen'
      obtain ⟨a, b, rfl⟩ := List.length_eq_two.mp hspan
      cases rest with
      | nil =>
        rw [List.length_nil] at hlen'
        omega
      | cons flag rest =>
        refine ⟨flag, rest, ?_, ?_⟩
        · cases a <;> cases b <;> first | exact hbits | exact absurd hzero (by decide)
        · rw [List.length_cons] at hlen'
          omega
    · simp only [ne_eq, hzero, not_false_eq_true, if_true] at h
      cases h

/-- A successful decoding is a reading of the stream. -/
theorem reading_of_decode {input : Bytes} {s : IntSet T} (h : decode T input = .ok s) :
    Nonempty (Reading input) := by
  obtain ⟨flag, rest, hbits, hlen⟩ := decode_ok_header h
  rw [decode_of_header hbits hlen] at h
  obtain ⟨d, hd, -⟩ := bind_ok h
  obtain ⟨blocks, padding, hrest⟩ := decodeBlocks_ok (d := ⟨rest, flag, 0, .empty⟩) (le_refl _) hd
  exact ⟨⟨flag, blocks, padding, hbits.trans (congrArg (fun bits => [false, false] ++ flag :: bits) hrest)⟩⟩

namespace Reading

variable {input : Bytes} (r : Reading input)

/-- The set that the decoder gets at when nothing stops it. -/
def output (T : IntType) : IntSet T :=
  (replay ⟨r.blocks.flatMap Block.bits ++ List.replicate r.padding false, r.polarity, 0, .empty⟩
    (periods T r.blocks)).output

theorem periods_eq : periods T r.blocks = (r.runs.map (· % 2 ^ T.bits)).map (Fin.ofNat _) := by
  rw [periods, runs, List.map_map, List.map_map]
  apply List.map_congr_left
  intro b _
  exact Fin.ext (Nat.mod_mod _ _).symm

theorem contains_output (x : Value T) : (r.output T).contains x = true ↔ x ∈ r.truncated T := by
  have hlens : ∀ len ∈ r.runs.map (· % 2 ^ T.bits), len < 2 ^ T.bits := by
    intro len hlen
    obtain ⟨run, -, rfl⟩ := List.mem_map.mp hlen
    exact Nat.mod_lt _ (Nat.two_pow_pos _)
  rw [output, periods_eq, contains_replay hlens (show _ = Fin.ofNat _ 0 from rfl), truncated,
    List.mem_toFinset]
  show _ ∨ false = true ↔ _
  simp

theorem keys_output : (r.output T).keys.toFinset = r.truncated T := by
  ext x
  rw [List.mem_toFinset, OrdMap.mem_keys_iff, ← contains_output]
  rfl

theorem length_output : (r.output T).keys.length = (r.truncated T).card := by
  have hnodup : (r.output T).keys.Nodup := (keys_sorted _).imp fun h => ne_of_lt h
  rw [← keys_output, List.toFinset_card_of_nodup hnodup]

/-- The decoder on a stream of the grammar: refused, or the truncated set. -/
theorem decode_eq :
    (r.Refused T ∧ ∃ e, decode T input = .error e) ∨
      (¬r.Refused T ∧ decode T input = .ok (r.output T)) := by
  have hlen : 2 ≤ (r.blocks.flatMap Block.bits ++ List.replicate r.padding false).length := by
    have hbytes := congrArg List.length r.reads
    rw [Bits.ofBytes_length, List.length_append, List.length_cons, List.length_cons,
      List.length_cons, List.length_nil] at hbytes
    omega
  have hreads : Bits.ofBytes input = [false, false] ++ r.polarity ::
      (r.blocks.flatMap Block.bits ++ List.replicate r.padding false) := r.reads
  rw [decode_of_header hreads hlen, Refused, ← length_output]
  rcases decodeBlocks_stream
      (d := ⟨r.blocks.flatMap Block.bits ++ List.replicate r.padding false, r.polarity, (0 : Value T), .empty⟩)
      rfl (le_refl _) with ⟨hlong, hresult⟩ | ⟨hnone, d', hresult, hout⟩
  · rw [hresult]
    exact .inl ⟨.inl hlong, _, rfl⟩
  · have hnot : ¬∃ b ∈ r.blocks, b.Overlong T := by
      rintro ⟨b, hb, hlong⟩
      exact hnone b hb hlong
    have hsize : d'.output.keys.length = (r.output T).keys.length := by rw [hout]; rfl
    rw [hresult, ok_bind, hsize]
    by_cases hmax : maxSize T < (r.output T).keys.length
    · rw [if_pos hmax]
      exact .inl ⟨.inr hmax, _, rfl⟩
    · rw [if_neg hmax, hout]
      refine .inr ⟨?_, rfl⟩
      rintro (hlong | hbig)
      · exact hnot hlong
      · exact hmax hbig

theorem expand_sorted (polarity : Bool) (start : ℕ) (lens : List ℕ) :
    (expand polarity start lens).Pairwise (· < ·) ∧ ∀ n ∈ expand polarity start lens, start ≤ n := by
  induction lens generalizing polarity start with
  | nil => cases polarity <;> simp [expand]
  | cons len lens ih =>
    cases polarity with
    | false =>
      obtain ⟨hsorted, hge⟩ := ih true (start + len)
      refine ⟨hsorted, fun n hn => ?_⟩
      have := hge n hn
      omega
    | true =>
      obtain ⟨hsorted, hge⟩ := ih false (start + len)
      have hrange : ∀ n ∈ List.range' start len, start ≤ n ∧ n < start + len := by
        intro n hn
        exact List.mem_range'_1.mp hn
      refine ⟨List.pairwise_append.mpr ⟨List.pairwise_lt_range', hsorted, ?_⟩, ?_⟩
      · intro m hm n hn
        exact (hrange m hm).2.trans_le (hge n hn)
      · intro n hn
        rcases List.mem_append.mp hn with hn | hn
        · exact (hrange n hn).1
        · have := hge n hn
          omega

/-- With room for every run and position the truncated set is the set itself. -/
theorem output_of_fits (h : r.Fits T) : (r.output T).keys.map Fin.val = r.members := by
  have hsame : r.runs.map (· % 2 ^ T.bits) = r.runs := by
    refine (List.map_congr_left fun run hrun => ?_).trans (List.map_id _)
    exact Nat.mod_eq_of_lt (h.1 run hrun)
  apply (vals_sorted _).eq_of_mem_iff (expand_sorted r.polarity 0 r.runs).1
  intro n
  have hmem : ∀ x : Value T, x ∈ (r.output T).keys ↔ ∃ m ∈ r.members, Fin.ofNat _ m = x := by
    intro x
    rw [← List.mem_toFinset, keys_output, truncated, hsame, List.mem_toFinset, List.mem_map]
    rfl
  rw [List.mem_map]
  constructor
  · rintro ⟨x, hx, rfl⟩
    obtain ⟨m, hm, rfl⟩ := (hmem x).mp hx
    have hval : (Fin.ofNat (2 ^ T.bits) m).val = m := Nat.mod_eq_of_lt (h.2 m hm)
    rw [hval]
    exact hm
  · intro hn
    exact ⟨Fin.ofNat _ n, (hmem _).mpr ⟨n, hn, rfl⟩, Nat.mod_eq_of_lt (h.2 n hn)⟩

end Reading

/-- **Soundness.** A decoded set is the one that the stream denotes if and only if every reading of
the stream either fits the type or is refused on account of its size. -/
theorem decode_sound_iff (T : IntType) (input : Bytes) :
    Sound T input ↔ ∀ r : Reading input, r.Fits T ∨ r.Refused T := by
  constructor
  · intro hsound r
    rcases r.decode_eq (T := T) with ⟨hrefused, -⟩ | ⟨-, hok⟩
    · exact .inr hrefused
    · exact .inl ((hsound _ hok).2 r).1
  · intro hall s hs
    refine ⟨reading_of_decode hs, fun r => ?_⟩
    rcases r.decode_eq (T := T) with ⟨-, e, herror⟩ | ⟨haccepted, hok⟩
    · rw [herror] at hs
      cases hs
    · have hfits := (hall r).resolve_right haccepted
      rw [hok] at hs
      cases hs
      exact ⟨hfits, r.output_of_fits hfits⟩

/-- A member run of 256 in a byte stream: the length wraps to zero, and the empty set is decoded. -/
def wrappedRun : Bytes := [0x04, 0x50, 0x00]

theorem wrapped_run_unsound : ¬∀ (T : IntType) (input : Bytes), Sound T input := by
  intro hall
  have hdecode : decode .uint8 wrappedRun = .ok .empty := rfl
  let r : Reading wrappedRun := ⟨true, [.long (.more 0 (.last 2))], 3, by decide +kernel⟩
  have hfits := ((hall _ _ _ hdecode).2 r).1
  exact absurd (hfits.1 256 List.mem_cons_self) (by decide)

end IpfsLite.Codec.RlePlus
