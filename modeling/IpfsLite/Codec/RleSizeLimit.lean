import IpfsLite.Codec.RleGrammar

/-! # The size limit of RLE+

What `operator>>` has in its output at each point of the loops. The limit is tested once, behind the outer loop,
so a run is inserted whole whatever its length. -/
namespace IpfsLite.Codec.RlePlus
set_option autoImplicit false

variable {T : IntType}

/-! ## Every output there is -/

/-- The output after each `output.insert( current_value++ )` of a run. -/
def runOutputs : ℕ → Value T → IntSet T → List (IntSet T)
  | 0, _, _ => []
  | length + 1, value, output =>
    output.insert value () :: runOutputs length (value + 1) (output.insert value ())

/-- The part of a block in front of its run: the length, and the bits behind. -/
def readBlock (T : IntType) (bits : List Bool) : Except DecodeError (ℕ × List Bool) := do
  let (header, bits) ← getSpan 1 bits
  if header = 1 then return (1, bits)
  else
    let (blockHeader, bits) ← getSpan 1 bits
    if blockHeader = 0 then do
      let (slices, bits) ← readSlices bits.length bits
      let length ← unpack T slices
      return (length.val, bits)
    else do
      let (length, bits) ← getSpan 4 bits
      return (length.toNat, bits)

def blockOutputs (d : Decoder T) (length : ℕ) : List (IntSet T) :=
  if d.magnitude then runOutputs length d.value d.output else []

def blocksOutputs : ℕ → Decoder T → List (IntSet T)
  | 0, _ => []
  | fuel + 1, d =>
    if true ∈ d.bits then
      match readBlock T d.bits with
      | .error _ => []
      | .ok (length, bits) =>
        blockOutputs d length ++ blocksOutputs fuel ({ d with bits := bits }.advance length)
    else []

/-- The version is checked, the polarity is read. -/
def readHeader (input : Bytes) : Except DecodeError (Bool × List Bool) := do
  let bits := Bits.ofBytes input
  if bits.length < 4 then throw .versionMismatch
  let (version, bits) ← getSpan 2 bits
  if version ≠ 0 then throw .versionMismatch
  let (magnitude, bits) ← getSpan 1 bits
  return (magnitude = 1, bits)

/-- The output from the beginning of `decode` to its end or to an exception, insertion by insertion. -/
def decodeOutputs (T : IntType) (input : Bytes) : List (IntSet T) :=
  .empty :: match readHeader input with
    | .error _ => []
    | .ok (magnitude, bits) => blocksOutputs bits.length ⟨bits, magnitude, (0 : Value T), .empty⟩

/-! ## They are those of the decoder -/

theorem decodeBlock_eq (d : Decoder T) : decodeBlock d =
    (readBlock T d.bits).map fun r => { d with bits := r.2 }.advance r.1 := by
  unfold decodeBlock readBlock
  cases getSpan 1 d.bits with
  | error e => rfl
  | ok first =>
    obtain ⟨header, bits⟩ := first
    simp only [bind, Except.bind]
    split_ifs with hheader
    · rfl
    · cases getSpan 1 bits with
      | error e => rfl
      | ok second =>
        obtain ⟨blockHeader, bits⟩ := second
        simp only
        split_ifs with hlong
        · simp only [decodeLongBlock, bind, Except.bind]
          cases readSlices bits.length bits with
          | error e => rfl
          | ok result =>
            obtain ⟨slices, bits⟩ := result
            simp only
            cases unpack T slices <;> rfl
        · simp only [decodeSmallBlock, bind, Except.bind]
          cases getSpan 4 bits <;> rfl

theorem decode_eq_header (input : Bytes) : decode T input = (do
    let (magnitude, bits) ← readHeader input
    let d ← decodeBlocks bits.length ⟨bits, magnitude, (0 : Value T), .empty⟩
    if maxSize T < d.output.keys.length then throw .maxSizeExceed
    return d.output) := by
  unfold decode readHeader
  by_cases hshort : (Bits.ofBytes input).length < 4
  · simp only [if_pos hshort]
    rfl
  · simp only [if_neg hshort]
    cases hversion : getSpan 2 (Bits.ofBytes input) with
    | error e => rfl
    | ok result =>
      obtain ⟨version, bits⟩ := result
      by_cases hzero : version ≠ 0
      · simp only [bind, Except.bind, if_pos hzero]
        rfl
      · simp only [bind, Except.bind, if_neg hzero]
        cases getSpan 1 bits <;> rfl

theorem getLastD_append {α : Type} (xs ys : List α) (a : α) :
    (xs ++ ys).getLastD a = ys.getLastD (xs.getLastD a) := by
  induction xs generalizing a with
  | nil => rfl
  | cons x xs ih => rw [List.cons_append, List.getLastD_cons, ih, List.getLastD_cons]

/-- The run ends with the last of its outputs. -/
theorem getLastD_runOutputs (length : ℕ) (value : Value T) (output : IntSet T) :
    (runOutputs length value output).getLastD output = insertRun length value output := by
  induction length generalizing value output with
  | zero => rfl
  | succ length ih => rw [runOutputs, insertRun, List.getLastD_cons, ih]

theorem getLastD_blockOutputs (d : Decoder T) (length : ℕ) :
    (blockOutputs d length).getLastD d.output = (d.advance length).output := by
  unfold blockOutputs Decoder.advance
  cases d.magnitude with
  | false => rfl
  | true => exact getLastD_runOutputs length d.value d.output

/-- The loop ends with the last of its outputs. -/
theorem getLastD_blocksOutputs {fuel : ℕ} {d d' : Decoder T} (h : decodeBlocks fuel d = .ok d') :
    (blocksOutputs fuel d).getLastD d.output = d'.output := by
  induction fuel generalizing d with
  | zero =>
    obtain rfl : d = d' := Except.ok.inj h
    rfl
  | succ fuel ih =>
    rw [decodeBlocks] at h
    by_cases hmem : true ∈ d.bits
    · rw [if_pos hmem, decodeBlock_eq] at h
      rw [blocksOutputs, if_pos hmem]
      cases hread : readBlock T d.bits with
      | error e =>
        rw [hread] at h
        cases h
      | ok result =>
        obtain ⟨length, bits⟩ := result
        rw [hread] at h
        have hrun : (blockOutputs d length).getLastD d.output = ({ d with bits := bits }.advance length).output :=
          getLastD_blockOutputs d length
        simp only
        rw [getLastD_append, hrun]
        exact ih h
    · rw [if_neg hmem] at h
      obtain rfl : d = d' := Except.ok.inj h
      rw [blocksOutputs, if_neg hmem]
      rfl

/-- What `decode` returns is the last of the outputs. -/
theorem getLast_decodeOutputs {input : Bytes} {s : IntSet T} (h : decode T input = .ok s) :
    (decodeOutputs T input).getLast (List.cons_ne_nil _ _) = s := by
  rw [decode_eq_header] at h
  obtain ⟨⟨magnitude, bits⟩, hheader, h⟩ := bind_ok h
  obtain ⟨d, hd, h⟩ := bind_ok h
  have hlast := getLastD_blocksOutputs hd
  have houtput : d.output = s := by
    simp only at h
    split_ifs at h
    · cases h
    · exact Except.ok.inj h
  rw [← houtput, ← hlast, ← List.getLast_eq_getLastD]
  simp only [decodeOutputs, hheader]
  exact List.cons_ne_nil _ _

/-! ## The limit -/

/-- At no point are there more members than `OBJECT_MAX_SIZE / sizeof( T )`. -/
def Limited (T : IntType) (input : Bytes) : Prop := ∀ s ∈ decodeOutputs T input, s.keys.length ≤ maxSize T

theorem length_le_insert (s : IntSet T) (x : Value T) : s.keys.length ≤ (s.insert x ()).keys.length := by
  refine List.Subperm.length_le (List.subperm_of_subset s.nodup_keys fun y hy => ?_)
  rw [OrdMap.mem_keys_iff_contains] at hy ⊢
  rw [OrdMap.contains_insert, hy, Bool.or_true]

theorem run_limited_iff {limit : ℕ} (length : ℕ) (value : Value T) (output : IntSet T) :
    (∀ s ∈ output :: runOutputs length value output, s.keys.length ≤ limit) ↔
      (insertRun length value output).keys.length ≤ limit := by
  induction length generalizing value output with
  | zero => simp [runOutputs, insertRun]
  | succ length ih =>
    rw [runOutputs, insertRun, ← ih, List.forall_mem_cons]
    refine and_iff_right_of_imp fun h => ?_
    exact (length_le_insert output value).trans (h _ List.mem_cons_self)

theorem block_limited_iff {limit : ℕ} (d : Decoder T) (length : ℕ) :
    (∀ s ∈ d.output :: blockOutputs d length, s.keys.length ≤ limit) ↔
      (d.advance length).output.keys.length ≤ limit := by
  unfold blockOutputs Decoder.advance
  cases d.magnitude with
  | false => simp
  | true => exact run_limited_iff length d.value d.output

/-- No set bit is left, or the next block is refused. -/
theorem stopped_iff {limit : ℕ} {d : Decoder T} (h : true ∉ d.bits ∨ ∃ e, decodeBlock d = .error e) :
    d.output.keys.length ≤ limit ↔
      ∀ (blocks : List Block) (rest : List Bool), d.bits = blocks.flatMap Block.bits ++ rest →
        (∀ b ∈ blocks, ¬b.Overlong T) → (replay d (periods T blocks)).output.keys.length ≤ limit := by
  constructor
  · intro hlimit blocks rest hbits hblocks
    obtain hmem | ⟨e, he⟩ := h
    · rw [replay_zeros fun hbit => hmem (hbits ▸ List.mem_append_left rest hbit)]
      exact hlimit
    · cases blocks with
      | nil => exact hlimit
      | cons b blocks =>
        rw [List.flatMap_cons, List.append_assoc] at hbits
        rw [decodeBlock_bits b hbits, if_neg (hblocks b List.mem_cons_self)] at he
        cases he
  · intro hall
    exact hall [] d.bits rfl fun b hb => absurd hb List.not_mem_nil

/-- From block to block, as far as the stream can be read. -/
theorem blocks_limited_iff {limit fuel : ℕ} (d : Decoder T) (hfuel : d.bits.length ≤ fuel) :
    (∀ s ∈ d.output :: blocksOutputs fuel d, s.keys.length ≤ limit) ↔
      ∀ (blocks : List Block) (rest : List Bool), d.bits = blocks.flatMap Block.bits ++ rest →
        (∀ b ∈ blocks, ¬b.Overlong T) → (replay d (periods T blocks)).output.keys.length ≤ limit := by
  induction fuel generalizing d with
  | zero =>
    have hnil := List.eq_nil_of_length_eq_zero (Nat.le_zero.mp hfuel)
    rw [blocksOutputs, List.forall_mem_singleton]
    exact stopped_iff (.inl (by rw [hnil]; exact List.not_mem_nil))
  | succ fuel ih =>
    rw [blocksOutputs]
    by_cases hmem : true ∈ d.bits
    · rw [if_pos hmem]
      cases hread : readBlock T d.bits with
      | error e =>
        simp only [List.forall_mem_singleton]
        exact stopped_iff (.inr ⟨e, by rw [decodeBlock_eq, hread]; rfl⟩)
      | ok result =>
        obtain ⟨length, bits⟩ := result
        have hblock : decodeBlock d = .ok ({ d with bits := bits }.advance length) := by
          rw [decodeBlock_eq, hread]
          rfl
        obtain ⟨b, hb⟩ := decodeBlock_ok hblock
        have hpos : 0 < b.bits.length := by cases b <;> simp [Block.bits]
        have hlen := congrArg List.length hb
        rw [List.length_append] at hlen
        have hrest := ih ({ d with bits := bits }.advance length) (by omega)
        have hrun : (∀ s ∈ d.output :: blockOutputs d length, s.keys.length ≤ limit) ↔
            ({ d with bits := bits }.advance length).output.keys.length ≤ limit := block_limited_iff d length
        rw [List.forall_mem_cons] at hrest
        simp only
        rw [← List.cons_append, List.forall_mem_append, hrun, hrest]
        constructor
        · intro hall blocks rest hbits hblocks
          cases blocks with
          | nil => exact hrun.mpr (hall [] bits rfl fun b hb => absurd hb List.not_mem_nil) _ List.mem_cons_self
          | cons c blocks =>
            rw [List.flatMap_cons, List.append_assoc] at hbits
            have hnext := decodeBlock_bits c hbits
            rw [if_neg (hblocks c List.mem_cons_self), hblock, Except.ok.injEq] at hnext
            rw [hnext] at hall
            have hlater := hall blocks rest rfl fun c' hc => hblocks c' (List.mem_cons_of_mem c hc)
            have hsame := replay_bits d (blocks.flatMap Block.bits ++ rest) (periods T (c :: blocks))
            rw [← hsame]
            exact hlater
        · intro hall blocks rest hbits hblocks
          have hnext := decodeBlock_bits b hb
          by_cases hlong : b.Overlong T
          · rw [if_pos hlong, hblock] at hnext
            cases hnext
          · rw [if_neg hlong, hblock, Except.ok.injEq] at hnext
            rw [hbits] at hb
            have hlater := hall (b :: blocks) rest
              (by rw [List.flatMap_cons, List.append_assoc]; exact hb)
              (List.forall_mem_cons.mpr ⟨hlong, hblocks⟩)
            have hsame := replay_bits d bits (periods T (b :: blocks))
            rw [← hsame] at hlater
            rw [hnext]
            exact hlater
    · rw [if_neg hmem, List.forall_mem_singleton]
      exact stopped_iff (.inl hmem)

/-! ## The announced members -/

/-- The members that leading blocks announce, as values of the type. -/
def announced (T : IntType) (polarity : Bool) (blocks : List Block) : Finset (Value T) :=
  ((expand polarity 0 (blocks.map fun b => b.length % 2 ^ T.bits)).map (Fin.ofNat _)).toFinset

theorem length_replay (polarity : Bool) (blocks : List Block) (bits : List Bool) :
    (replay ⟨bits, polarity, 0, .empty⟩ (periods T blocks)).output.keys.length =
      (announced T polarity blocks).card := by
  have hlens : ∀ len ∈ blocks.map (fun b => b.length % 2 ^ T.bits), len < 2 ^ T.bits := by
    intro len hlen
    obtain ⟨b, -, rfl⟩ := List.mem_map.mp hlen
    exact Nat.mod_lt _ (Nat.two_pow_pos _)
  have hperiods : periods T blocks = (blocks.map fun b => b.length % 2 ^ T.bits).map (Fin.ofNat _) := by
    rw [periods, List.map_map]
    exact List.map_congr_left fun b _ => Fin.ext (Nat.mod_mod _ _).symm
  have hkeys : (replay ⟨bits, polarity, 0, .empty⟩ (periods T blocks)).output.keys.toFinset =
      announced T polarity blocks := by
    ext x
    rw [List.mem_toFinset, OrdMap.mem_keys_iff_contains, hperiods,
      contains_replay hlens (show (0 : Value T) = Fin.ofNat _ 0 from rfl), announced, List.mem_toFinset]
    simp
  rw [← hkeys, List.toFinset_card_of_nodup (OrdMap.nodup_keys _)]

theorem readHeader_ok {input : Bytes} {polarity : Bool} {bits : List Bool} :
    readHeader input = .ok (polarity, bits) ↔ Bits.ofBytes input = [false, false] ++ polarity :: bits := by
  have hbytes : (Bits.ofBytes input).length = 8 * input.length := Bits.ofBytes_length input
  unfold readHeader
  constructor
  · intro h
    by_cases hshort : (Bits.ofBytes input).length < 4
    · simp only [if_pos hshort] at h
      cases h
    · simp only [if_neg hshort] at h
      obtain ⟨-, -, h⟩ := bind_ok h
      obtain ⟨⟨version, rest⟩, hversion, h⟩ := bind_ok h
      obtain ⟨span, hspan, hbits, rfl⟩ := getSpan_ok hversion
      by_cases hzero : UInt8.ofNat (Bits.toNat span) = 0
      · simp only [ne_eq, hzero, not_true, if_false] at h
        obtain ⟨-, -, h⟩ := bind_ok h
        obtain ⟨⟨magnitude, rest'⟩, hmagnitude, h⟩ := bind_ok h
        obtain ⟨a, b, rfl⟩ := List.length_eq_two.mp hspan
        cases rest with
        | nil => simp [getSpan] at hmagnitude
        | cons flag rest =>
          rw [getSpan_bit, Except.ok.injEq, Prod.mk.injEq] at hmagnitude
          obtain ⟨rfl, rfl⟩ := hmagnitude
          obtain ⟨hflag, rfl⟩ := Prod.mk.inj (Except.ok.inj h)
          have hpolarity : flag = polarity := by
            rw [← hflag]
            cases flag <;> rfl
          rw [hbits, hpolarity]
          cases a <;> cases b <;> first | rfl | exact absurd hzero (by decide)
      · simp only [ne_eq, hzero, not_false_eq_true, if_true] at h
        cases h
  · intro h
    have hlen := congrArg List.length h
    rw [List.length_append, List.length_cons, List.length_cons, List.length_cons, List.length_nil] at hlen
    have hversion : getSpan 2 ([false, false] ++ polarity :: bits) = .ok (0, polarity :: bits) := getSpan_append _ rfl
    simp only [if_neg (show ¬ (Bits.ofBytes input).length < 4 by omega)]
    rw [h]
    simp only [bind, Except.bind, pure, Except.pure, hversion, ne_eq, not_true, if_false, getSpan_bit]
    cases polarity <;> rfl

theorem outputs_limited_iff {limit : ℕ} {input : Bytes} {polarity : Bool} {bits : List Bool}
    (h : readHeader input = .ok (polarity, bits)) : (∀ s ∈ decodeOutputs T input, s.keys.length ≤ limit) ↔
      ∀ (blocks : List Block) (rest : List Bool), bits = blocks.flatMap Block.bits ++ rest →
        (∀ b ∈ blocks, ¬b.Overlong T) → (announced T polarity blocks).card ≤ limit := by
  have hblocks := @blocks_limited_iff T limit _ ⟨bits, polarity, (0 : Value T), .empty⟩ le_rfl
  simp only [length_replay] at hblocks
  rw [decodeOutputs, h]
  exact hblocks

/-- What leading blocks announce is in the output at some point. -/
theorem announced_le {input : Bytes} (h : Limited T input) {polarity : Bool} {blocks : List Block} {rest : List Bool}
    (hbits : Bits.ofBytes input = [false, false] ++ polarity :: (blocks.flatMap Block.bits ++ rest))
    (hnone : ∀ b ∈ blocks, ¬b.Overlong T) : (announced T polarity blocks).card ≤ maxSize T :=
  (outputs_limited_iff ((readHeader_ok).mpr hbits)).mp h blocks rest rfl hnone

theorem limited_of_announced {input : Bytes}
    (h : ∀ (polarity : Bool) (blocks : List Block) (rest : List Bool),
      Bits.ofBytes input = [false, false] ++ polarity :: (blocks.flatMap Block.bits ++ rest) →
        (∀ b ∈ blocks, ¬b.Overlong T) → (announced T polarity blocks).card ≤ maxSize T) : Limited T input := by
  cases hheader : readHeader input with
  | error e =>
    intro s hs
    rw [decodeOutputs, hheader, List.mem_singleton] at hs
    rw [hs]
    exact Nat.zero_le _
  | ok result =>
    obtain ⟨polarity, bits⟩ := result
    refine (outputs_limited_iff hheader).mpr fun blocks rest hbits hnone => ?_
    exact h polarity blocks rest (by rw [← hbits]; exact (readHeader_ok).mp hheader) hnone

/-- **The size limit** is kept at every point exactly if no leading blocks of the stream, none of them refused,
announce more values than it allows. -/
theorem limited_iff (T : IntType) (input : Bytes) : Limited T input ↔
    ∀ (polarity : Bool) (blocks : List Block) (rest : List Bool),
      Bits.ofBytes input = [false, false] ++ polarity :: (blocks.flatMap Block.bits ++ rest) →
        (∀ b ∈ blocks, ¬b.Overlong T) → (announced T polarity blocks).card ≤ maxSize T :=
  ⟨fun h _ _ _ hbits hnone => announced_le h hbits hnone, limited_of_announced⟩

/-! ## A huge run -/

/-- A first run of members, cut off nowhere. -/
theorem announced_run {b : Block} (h : b.length < 2 ^ T.bits) : (announced T true [b]).card = b.length := by
  have hexpand : announced T true [b] = ((List.range' 0 b.length).map (Fin.ofNat (2 ^ T.bits))).toFinset := by
    simp [announced, expand, Nat.mod_eq_of_lt h]
  rw [hexpand, List.toFinset_card_of_nodup, List.length_map, List.length_range']
  refine List.Nodup.map_on ?_ List.nodup_range'
  intro m hm n hn heq
  have hm' := (List.mem_range'_1.mp hm).2
  have hn' := (List.mem_range'_1.mp hn).2
  have hval := congrArg Fin.val heq
  rw [Fin.val_ofNat, Fin.val_ofNat, Nat.mod_eq_of_lt (by omega), Nat.mod_eq_of_lt (by omega)] at hval
  exact hval

/-- 2^40 members in seven bytes. -/
def hugeRun : Bytes := [0x04, 0x10, 0x10, 0x10, 0x10, 0x10, 0x04]

theorem hugeRun_materialised : ∃ s ∈ decodeOutputs .uint64 hugeRun, maxSize .uint64 < s.keys.length := by
  by_contra hnone
  push Not at hnone
  let run : Block := .long (.more 0 (.more 0 (.more 0 (.more 0 (.more 0 (.last 32))))))
  have hbits : Bits.ofBytes hugeRun = [false, false] ++ true :: ([run].flatMap Block.bits ++ [false, false, false]) := by
    decide +kernel
  have hlength : run.length = 2 ^ 40 := by decide +kernel
  have hcount : (announced .uint64 true [run]).card = run.length := announced_run (by rw [hlength]; decide)
  have hle := announced_le hnone hbits (by decide +kernel)
  rw [hcount, hlength] at hle
  exact absurd hle (by decide)

end IpfsLite.Codec.RlePlus
