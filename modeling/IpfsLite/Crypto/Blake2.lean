import IpfsLite.Foundations.BlockHash
import IpfsLite.Ipld.Node

/-! # BLAKE2

`blake2b.c` and `blake2s.c` are one program over words of 64 and of 32 bits (`crypto/blake2`). A context holds a
buffer that is compressed when the next byte comes, and a counter of two words. -/
namespace IpfsLite.Blake2
set_option autoImplicit false

/-- In what the two programs differ. A word has `bits` bits, which is also the greatest length of a digest and of a
key, and a block has twice as many bytes. -/
structure Variant where
  bits : ℕ
  wide : 2 * bits < 2 ^ bits
  pos : 0 < bits
  iv : List (BitVec bits)
  sigma : List (List ℕ)
  r1 : ℕ
  r2 : ℕ
  r3 : ℕ
  r4 : ℕ

/-- The rows of the message schedule; blake2b starts over after ten. -/
def sigmaRows : List (List ℕ) := [
  [0, 1, 2, 3, 4, 5, 6, 7, 8, 9, 10, 11, 12, 13, 14, 15],
  [14, 10, 4, 8, 9, 15, 13, 6, 1, 12, 0, 2, 11, 7, 5, 3],
  [11, 8, 12, 0, 5, 2, 15, 13, 10, 14, 3, 6, 7, 1, 9, 4],
  [7, 9, 3, 1, 13, 12, 11, 14, 2, 6, 5, 10, 4, 0, 15, 8],
  [9, 0, 5, 7, 2, 4, 10, 15, 14, 1, 11, 12, 6, 8, 3, 13],
  [2, 12, 6, 10, 0, 11, 8, 3, 4, 13, 7, 5, 15, 14, 1, 9],
  [12, 5, 1, 15, 14, 13, 4, 10, 0, 7, 6, 3, 9, 2, 8, 11],
  [13, 11, 7, 14, 12, 1, 3, 9, 5, 0, 15, 4, 8, 6, 2, 10],
  [6, 15, 14, 9, 11, 3, 0, 8, 12, 2, 13, 7, 1, 4, 10, 5],
  [10, 2, 8, 4, 7, 6, 1, 5, 15, 11, 9, 14, 3, 12, 13, 0]]

def blake2bVariant : Variant where
  bits := 64
  wide := by decide
  pos := by decide
  iv := [0x6A09E667F3BCC908, 0xBB67AE8584CAA73B, 0x3C6EF372FE94F82B, 0xA54FF53A5F1D36F1,
    0x510E527FADE682D1, 0x9B05688C2B3E6C1F, 0x1F83D9ABFB41BD6B, 0x5BE0CD19137E2179]
  sigma := sigmaRows ++ sigmaRows.take 2
  r1 := 32
  r2 := 24
  r3 := 16
  r4 := 63

def blake2sVariant : Variant where
  bits := 32
  wide := by decide
  pos := by decide
  iv := [0x6A09E667, 0xBB67AE85, 0x3C6EF372, 0xA54FF53A, 0x510E527F, 0x9B05688C, 0x1F83D9AB, 0x5BE0CD19]
  sigma := sigmaRows
  r1 := 16
  r2 := 12
  r3 := 8
  r4 := 7

variable (V : Variant)

abbrev Variant.Word := BitVec V.bits

/-- The bytes of the buffer. -/
def Variant.block : ℕ := 2 * V.bits

/-- The bytes of a word. -/
def Variant.wordBytes : ℕ := V.bits / 8

/-! ## Compression -/

/-- `B2B_GET64` and `B2S_GET32` at the word `i`. -/
def getWord (b : Bytes) (i : ℕ) : V.Word :=
  (List.range V.wordBytes).foldl
    (fun word j => word ^^^ (BitVec.ofNat V.bits (b.getD (V.wordBytes * i + j) 0).toNat <<< (8 * j))) 0

/-- `B2B_G` and `B2S_G`. -/
def mix (v : List V.Word) (a b c d : ℕ) (x y : V.Word) : List V.Word :=
  let at' (v : List V.Word) (i : ℕ) : V.Word := v.getD i 0
  let v := v.set a (at' v a + at' v b + x)
  let v := v.set d ((at' v d ^^^ at' v a).rotateRight V.r1)
  let v := v.set c (at' v c + at' v d)
  let v := v.set b ((at' v b ^^^ at' v c).rotateRight V.r2)
  let v := v.set a (at' v a + at' v b + y)
  let v := v.set d ((at' v d ^^^ at' v a).rotateRight V.r3)
  let v := v.set c (at' v c + at' v d)
  v.set b ((at' v b ^^^ at' v c).rotateRight V.r4)

def round (m : List V.Word) (v : List V.Word) (row : List ℕ) : List V.Word :=
  let word (i : ℕ) : V.Word := m.getD (row.getD i 0) 0
  let v := mix V v 0 4 8 12 (word 0) (word 1)
  let v := mix V v 1 5 9 13 (word 2) (word 3)
  let v := mix V v 2 6 10 14 (word 4) (word 5)
  let v := mix V v 3 7 11 15 (word 6) (word 7)
  let v := mix V v 0 5 10 15 (word 8) (word 9)
  let v := mix V v 1 6 11 12 (word 10) (word 11)
  let v := mix V v 2 7 8 13 (word 12) (word 13)
  mix V v 3 4 9 14 (word 14) (word 15)

/-- The chained state after a block. -/
def compressWords (h : List V.Word) (t0 t1 : V.Word) (b : Bytes) (last : Bool) : List V.Word :=
  let v := h ++ V.iv
  let v := v.set 12 (v.getD 12 0 ^^^ t0)
  let v := v.set 13 (v.getD 13 0 ^^^ t1)
  let v := if last then v.set 14 (~~~ v.getD 14 0) else v
  let m := (List.range 16).map (getWord V b)
  let v := V.sigma.foldl (round V m) v
  (List.range 8).map fun i => h.getD i 0 ^^^ (v.getD i 0 ^^^ v.getD (i + 8) 0)

/-! ## The context -/

structure Ctx where
  b : Bytes
  h : List V.Word
  t0 : V.Word
  t1 : V.Word
  c : ℕ
  outlen : ℕ

variable {V}

namespace Ctx

def compress (ctx : Ctx V) (last : Bool) : Ctx V := { ctx with h := compressWords V ctx.h ctx.t0 ctx.t1 ctx.b last }

/-- The bytes of the buffer are added to the counter, with the carry. -/
def count (ctx : Ctx V) : Ctx V :=
  let t0 := ctx.t0 + BitVec.ofNat V.bits ctx.c
  { ctx with t0, t1 := if t0 < BitVec.ofNat V.bits ctx.c then ctx.t1 + 1 else ctx.t1 }

def updateByte (ctx : Ctx V) (byte : UInt8) : Ctx V :=
  let ctx := if ctx.c = V.block then { ctx.count.compress false with c := 0 } else ctx
  { ctx with b := ctx.b.set ctx.c byte, c := ctx.c + 1 }

def update (ctx : Ctx V) (input : Bytes) : Ctx V := input.foldl updateByte ctx

/-- Up to the final compression: the buffer is filled up with zeros. -/
def fillUp (ctx : Ctx V) : Ctx V :=
  { ctx with b := ctx.b.take ctx.c ++ List.replicate (V.block - ctx.c) 0, c := V.block }

/-- The digest, in little endian. -/
def output (outlen : ℕ) (h : List V.Word) : Bytes :=
  (List.range outlen).map fun i =>
    UInt8.ofNat (h.getD (i / V.wordBytes) 0 >>> (8 * (i % V.wordBytes)) &&& 0xFF).toNat

def final (ctx : Ctx V) : Bytes := output ctx.outlen (ctx.count.fillUp.compress true).h

end Ctx

variable (V)

/-- The first word of the state holds the lengths. -/
def initialState (outlen keylen : ℕ) : List V.Word :=
  V.iv.set 0 (V.iv.getD 0 0 ^^^ (0x01010000 ^^^ (BitVec.ofNat V.bits keylen <<< 8) ^^^ BitVec.ofNat V.bits outlen))

/-- The key comes first and fills a block of its own. What is in the buffer before it is written is not read. -/
def init (outlen : ℕ) (key : Bytes) : Option (Ctx V) :=
  if outlen = 0 ∨ V.bits < outlen ∨ V.bits < key.length then none
  else
    let ctx : Ctx V := ⟨List.replicate V.block 0, initialState V outlen key.length, 0, 0, 0, outlen⟩
    some (if 0 < key.length then { ctx.update key with c := V.block } else ctx)

/-- A context that is fed chunk after chunk. -/
def hashChunks (outlen : ℕ) (key : Bytes) (chunks : List Bytes) : Option Bytes :=
  (init V outlen key).map fun ctx => (chunks.foldl Ctx.update ctx).final

/-! ## What a digest is -/

/-- The compression of a block after `n` bytes, which two words count. -/
def compression : BlockHash.Compression (List V.Word) UInt8 where
  block := V.block
  pos := Nat.mul_pos Nat.two_pos V.pos
  zero := 0
  compress h n b last := compressWords V h (BitVec.ofNat V.bits n) (BitVec.ofNat V.bits (n / 2 ^ V.bits)) b last

/-- A key takes up a block. -/
def keyBlock (key : Bytes) : Bytes := if key = [] then [] else key ++ List.replicate (V.block - key.length) 0

/-- The digest of a message, block by block. -/
def digest (outlen : ℕ) (key message : Bytes) : Bytes :=
  Ctx.output outlen
    (BlockHash.digest (compression V) (initialState V outlen key.length) 0 (keyBlock V key ++ message))

/-! ## The context follows the stream -/

variable {V}

theorem block_pos : 0 < V.block := Nat.mul_pos Nat.two_pos V.pos

/-- A sum carries when its remainder falls below a summand. -/
theorem carry_cases {m c : ℕ} (hc : c < m) (n : ℕ) :
    (n + c) / m = n / m ∧ ¬ (n + c) % m < c ∨ (n + c) / m = n / m + 1 ∧ (n + c) % m < c := by
  have hm : 0 < m := Nat.zero_lt_of_lt hc
  have hn := Nat.div_add_mod n m
  have hr := Nat.mod_lt n hm
  by_cases hsmall : n % m + c < m
  · have hdiv : (n + c) / m = n / m :=
      Nat.div_eq_of_lt_le (by rw [Nat.mul_comm]; omega) (by rw [Nat.add_mul, Nat.mul_comm (n / m)]; omega)
    have hmod := Nat.div_add_mod (n + c) m
    rw [hdiv] at hmod
    exact .inl ⟨hdiv, by omega⟩
  · have hdiv : (n + c) / m = n / m + 1 :=
      Nat.div_eq_of_lt_le (by rw [Nat.add_mul, Nat.mul_comm (n / m)]; omega)
        (by rw [Nat.add_mul, Nat.add_mul, Nat.mul_comm (n / m)]; omega)
    have hmod := Nat.div_add_mod (n + c) m
    rw [hdiv, Nat.mul_add] at hmod
    exact .inr ⟨hdiv, by omega⟩

namespace Ctx
variable {ctx : Ctx V}

/-- The two words count as one number. -/
theorem count_words {n : ℕ} (hlow : ctx.t0 = BitVec.ofNat V.bits n) (hhigh : ctx.t1 = BitVec.ofNat V.bits (n / 2 ^ V.bits))
    (hc : ctx.c ≤ V.block) :
    ctx.count.t0 = BitVec.ofNat V.bits (n + ctx.c) ∧
      ctx.count.t1 = BitVec.ofNat V.bits ((n + ctx.c) / 2 ^ V.bits) := by
  have hlt : ctx.c < 2 ^ V.bits := Nat.lt_of_le_of_lt hc V.wide
  have hsum : ctx.t0 + BitVec.ofNat V.bits ctx.c = BitVec.ofNat V.bits (n + ctx.c) := by
    rw [hlow, BitVec.ofNat_add]
  refine ⟨hsum, ?_⟩
  have hbelow : BitVec.ofNat V.bits (n + ctx.c) < BitVec.ofNat V.bits ctx.c ↔ (n + ctx.c) % 2 ^ V.bits < ctx.c := by
    rw [BitVec.lt_def, BitVec.toNat_ofNat, BitVec.toNat_ofNat, Nat.mod_eq_of_lt hlt]
  simp only [count, hsum, hbelow]
  obtain ⟨hdiv, hmod⟩ | ⟨hdiv, hmod⟩ := carry_cases hlt n
  · rw [if_neg hmod, hdiv, hhigh]
  · rw [if_pos hmod, hdiv, hhigh, BitVec.ofNat_add]
    rfl

structure Follows (ctx : Ctx V) (s : BlockHash.Stream (List V.Word) UInt8) : Prop where
  state : ctx.h = s.state
  low : ctx.t0 = BitVec.ofNat V.bits s.offset
  high : ctx.t1 = BitVec.ofNat V.bits (s.offset / 2 ^ V.bits)
  length : ctx.b.length = V.block
  bounded : ctx.c ≤ V.block
  taken : ctx.b.take ctx.c = s.pending

variable {s : BlockHash.Stream (List V.Word) UInt8}

theorem Follows.pending_length (h : ctx.Follows s) : s.pending.length = ctx.c := by
  rw [← h.taken, List.length_take, h.length, Nat.min_eq_left h.bounded]

theorem take_set {b : Bytes} {c : ℕ} (h : c < b.length) (x : UInt8) : (b.set c x).take (c + 1) = b.take c ++ [x] := by
  rw [List.take_add_one, List.take_set_of_le le_rfl, List.getElem?_set_self h]
  rfl

theorem Follows.updateByte (h : ctx.Follows s) (x : UInt8) :
    (ctx.updateByte x).Follows (s.feed (compression V) x) := by
  obtain ⟨hlow, hhigh⟩ := count_words h.low h.high h.bounded
  have hlength := h.length
  unfold Ctx.updateByte BlockHash.Stream.feed
  rw [h.pending_length, show (compression V).block = V.block from rfl]
  by_cases hfull : ctx.c = V.block
  · rw [if_pos hfull, if_pos hfull]
    rw [hfull] at hlow hhigh
    have htaken : ctx.b = s.pending := by rw [← h.taken, hfull, ← hlength, List.take_length]
    refine ⟨?_, hlow, hhigh, ?_, block_pos, ?_⟩
    · change compressWords V ctx.h ctx.count.t0 ctx.count.t1 ctx.b false = _
      rw [h.state, hlow, hhigh, htaken]
      rfl
    · rw [List.length_set]
      exact hlength
    · exact take_set (hlength ▸ block_pos) x
  · have hlt : ctx.c < V.block := lt_of_le_of_ne h.bounded hfull
    rw [if_neg hfull, if_neg hfull]
    refine ⟨h.state, h.low, h.high, ?_, hlt, ?_⟩
    · rw [List.length_set]
      exact hlength
    · rw [← h.taken]
      exact take_set (hlength ▸ hlt) x

theorem Follows.update (h : ctx.Follows s) (input : Bytes) :
    (ctx.update input).Follows (input.foldl (BlockHash.Stream.feed (compression V)) s) := by
  induction input generalizing ctx s with
  | nil => exact h
  | cons x input ih => exact ih (h.updateByte x)

theorem Follows.chunks (h : ctx.Follows s) (chunks : List Bytes) :
    (chunks.foldl Ctx.update ctx).Follows (chunks.flatten.foldl (BlockHash.Stream.feed (compression V)) s) := by
  induction chunks generalizing ctx s with
  | nil => exact h
  | cons chunk chunks ih =>
    rw [List.flatten_cons, List.foldl_append, List.foldl_cons]
    exact ih (h.update chunk)

theorem update_outlen (input : Bytes) : (ctx.update input).outlen = ctx.outlen := by
  induction input generalizing ctx with
  | nil => rfl
  | cons x input ih =>
    have hbyte : (ctx.updateByte x).outlen = ctx.outlen := by
      unfold Ctx.updateByte
      split_ifs <;> rfl
    exact ih.trans hbyte

theorem chunks_outlen (chunks : List Bytes) : (chunks.foldl Ctx.update ctx).outlen = ctx.outlen := by
  induction chunks generalizing ctx with
  | nil => rfl
  | cons chunk chunks ih => exact ih.trans (update_outlen chunk)

theorem Follows.final (h : ctx.Follows s) : ctx.final = output ctx.outlen (s.finish (compression V)) := by
  obtain ⟨hlow, hhigh⟩ := count_words h.low h.high h.bounded
  have hfill : ctx.b.take ctx.c ++ List.replicate (V.block - ctx.c) 0 = (compression V).fill s.pending := by
    rw [BlockHash.Compression.fill, h.pending_length, h.taken]
    rfl
  rw [BlockHash.Stream.finish, h.pending_length, ← hfill]
  change output ctx.outlen (compressWords V ctx.h ctx.count.t0 ctx.count.t1 _ true) = _
  rw [h.state, hlow, hhigh]
  rfl

/-- Bytes that fit into the buffer are written behind one another. -/
theorem update_short {input : Bytes} (hfit : ctx.c + input.length ≤ V.block) (hlength : ctx.b.length = V.block) :
    ctx.update input =
      { ctx with b := ctx.b.take ctx.c ++ input ++ ctx.b.drop (ctx.c + input.length), c := ctx.c + input.length } := by
  induction input generalizing ctx with
  | nil =>
    simp only [List.append_nil, List.length_nil, Nat.add_zero, List.take_append_drop]
    rfl
  | cons x input ih =>
    rw [List.length_cons] at hfit
    have hlt : ctx.c < ctx.b.length := by omega
    have hbyte : ctx.updateByte x = { ctx with b := ctx.b.set ctx.c x, c := ctx.c + 1 } := by
      rw [updateByte, if_neg (by omega)]
    have hdrop : (ctx.b.set ctx.c x).drop (ctx.c + 1 + input.length) = ctx.b.drop (ctx.c + 1 + input.length) :=
      List.drop_set_of_lt (by omega)
    have hrest : ctx.c + 1 + input.length ≤ V.block := by omega
    rw [update, List.foldl_cons, hbyte]
    refine Eq.trans (ih hrest ?_) ?_
    · rw [List.length_set]
      exact hlength
    · have hsum : ctx.c + (input.length + 1) = ctx.c + 1 + input.length := by omega
      simp only [take_set hlt, List.length_cons, hsum, hdrop, List.append_assoc, List.singleton_append]

end Ctx

/-- The context after `init` holds the key. -/
theorem init_some {outlen : ℕ} {key : Bytes} (hout : outlen ≠ 0) (hlen : outlen ≤ V.bits) (hkey : key.length ≤ V.bits) :
    ∃ ctx, init V outlen key = some ctx ∧ ctx.outlen = outlen ∧
      ctx.Follows ⟨initialState V outlen key.length, 0, keyBlock V key⟩ := by
  have hwide : V.bits ≤ V.block := Nat.le_mul_of_pos_left V.bits Nat.two_pos
  let ctx : Ctx V := ⟨List.replicate V.block 0, initialState V outlen key.length, 0, 0, 0, outlen⟩
  have hzero : BitVec.ofNat V.bits (0 / 2 ^ V.bits) = 0 := by rw [Nat.zero_div]; rfl
  have hinit : init V outlen key = some (if 0 < key.length then { ctx.update key with c := V.block } else ctx) :=
    if_neg (by omega)
  by_cases hnil : key = []
  · subst hnil
    refine ⟨ctx, hinit, rfl, rfl, rfl, hzero.symm, ?_, Nat.zero_le _, rfl⟩
    exact List.length_replicate
  · have hpos : 0 < key.length := List.length_pos_iff.mpr hnil
    have hfit : ctx.c + key.length ≤ V.block := by simp only [ctx]; omega
    have hupdate := Ctx.update_short hfit List.length_replicate
    have hb : (ctx.update key).b = keyBlock V key := by
      rw [hupdate, keyBlock, if_neg hnil]
      simp [ctx]
    have hblock : (keyBlock V key).length = V.block := by
      rw [keyBlock, if_neg hnil, List.length_append, List.length_replicate]
      omega
    rw [if_pos hpos] at hinit
    refine ⟨_, hinit, Ctx.update_outlen key, ?_, ?_, ?_, ?_, le_rfl, ?_⟩
    · rw [hupdate]
    · rw [hupdate]
      rfl
    · rw [hupdate]
      exact hzero.symm
    · exact hb ▸ hblock
    · simp only [hb]
      rw [← hblock, List.take_length]

/-- **A stream of chunks has the digest of what they make up**, block by block, whatever they are; there is none for
lengths that `init` refuses. -/
theorem hashChunks_eq (V : Variant) (outlen : ℕ) (key : Bytes) (chunks : List Bytes) :
    hashChunks V outlen key chunks =
      if outlen = 0 ∨ V.bits < outlen ∨ V.bits < key.length then none
      else some (digest V outlen key chunks.flatten) := by
  by_cases hrefused : outlen = 0 ∨ V.bits < outlen ∨ V.bits < key.length
  · rw [if_pos hrefused, hashChunks, init, if_pos hrefused]
    rfl
  · rw [if_neg hrefused]
    obtain ⟨hout, hlen, hkey⟩ := not_or.mp hrefused |>.imp_right not_or.mp
    obtain ⟨ctx, hinit, houtlen, hfollows⟩ := init_some hout (Nat.not_lt.mp hlen) (Nat.not_lt.mp hkey)
    rw [hashChunks, hinit, Option.map_some, (hfollows.chunks chunks).final, Ctx.chunks_outlen, houtlen,
      BlockHash.finish_foldl]
    · rfl
    · rw [hfollows.pending_length]
      exact hfollows.bounded

/-! ## The functions of the library -/

def sgns_blake2b (outlen : ℕ) (key input : Bytes) : Option Bytes := hashChunks blake2bVariant outlen key [input]

def blake2s (outlen : ℕ) (key input : Bytes) : Option Bytes := hashChunks blake2sVariant outlen key [input]

/-- A blob that is zeroed and then written; the code that is returned is not looked at. -/
def blob (size : ℕ) (hash : Option Bytes) : Bytes := hash.getD (List.replicate size 0)

def blake2b_160 (toHash : Bytes) : Bytes := blob 20 (sgns_blake2b 20 [] toHash)

def blake2b_256 (toHash : Bytes) : Bytes := blob 32 (sgns_blake2b 32 [] toHash)

/-- What the reads of one KB return, until one returns nothing. -/
def fileReads (file : Bytes) : List Bytes :=
  if 0 < file.length then file.take 1024 :: fileReads (file.drop 1024) else []
termination_by file.length
decreasing_by
  rw [List.length_drop]
  omega

/-- `none` is a file that is not open. -/
def blake2b_512_from_file (fileStream : Option Bytes) : Bytes :=
  match fileStream with
  | none => List.replicate 64 0
  | some file => blob 64 (hashChunks blake2bVariant 64 [] (fileReads file))

theorem fileReads_flatten (file : Bytes) : (fileReads file).flatten = file := by
  induction file using fileReads.induct with
  | case1 file hpos ih => rw [fileReads, if_pos hpos, List.flatten_cons, ih, List.take_append_drop]
  | case2 file hpos => rw [fileReads, if_neg hpos, List.flatten_nil, List.length_eq_zero_iff.mp (Nat.eq_zero_of_not_pos hpos)]

theorem digest_length (V : Variant) (outlen : ℕ) (key message : Bytes) : (digest V outlen key message).length = outlen := by
  rw [digest, Ctx.output, List.length_map, List.length_range]

theorem sgns_blake2b_eq {outlen : ℕ} (hout : outlen ≠ 0) (hlen : outlen ≤ 64) (input : Bytes) :
    sgns_blake2b outlen [] input = some (digest blake2bVariant outlen [] input) := by
  have hbits : blake2bVariant.bits = 64 := rfl
  rw [sgns_blake2b, hashChunks_eq, if_neg, List.flatten_singleton]
  rw [hbits, List.length_nil]
  omega

theorem blake2b_256_length (toHash : Bytes) : (blake2b_256 toHash).length = 32 := by
  rw [blake2b_256, sgns_blake2b_eq (by decide) (by decide)]
  exact digest_length _ _ _ _

/-- `IPFSHasher` with the BLAKE2b that is here. -/
def ipfsHasher (H : Hasher) : Hasher := { H with blake2b_256, blake2b_256_length }

/-- **Every way to a BLAKE2b digest is the same**: in one call, from a file by the kilobyte, or through the hasher; a
digest has the length that was asked for. -/
theorem blake2b_agree (H : Hasher) (input : Bytes) :
    sgns_blake2b 64 [] input = some (blake2b_512_from_file (some input)) ∧
    sgns_blake2b 20 [] input = some (blake2b_160 input) ∧
    ((ipfsHasher H).calculate HashType.blake2b256 input).map Multihash.hash = sgns_blake2b 32 [] input ∧
    ∀ outlen key digest, sgns_blake2b outlen key input = some digest → digest.length = outlen := by
  have hbits : blake2bVariant.bits = 64 := rfl
  have hone : ∀ outlen, outlen ≠ 0 → outlen ≤ 64 → sgns_blake2b outlen [] input = some (blob outlen (sgns_blake2b outlen [] input)) := by
    intro outlen hout hlen
    rw [sgns_blake2b_eq hout hlen]
    rfl
  refine ⟨?_, hone 20 (by decide) (by decide), ?_, ?_⟩
  · have hfile : hashChunks blake2bVariant 64 [] (fileReads input) = sgns_blake2b 64 [] input := by
      rw [sgns_blake2b, hashChunks_eq, hashChunks_eq, fileReads_flatten, List.flatten_singleton]
    rw [blake2b_512_from_file, hfile]
    exact hone 64 (by decide) (by decide)
  · have hbounded : (blake2b_256 input).length ≤ kMaxHashLength := by
      rw [blake2b_256_length]
      decide
    rw [Hasher.calculate, if_neg (by decide), if_pos rfl]
    change (Multihash.create HashType.blake2b256 (blake2b_256 input)).map Multihash.hash = _
    rw [Multihash.create_of_le hbounded, hone 32 (by decide) (by decide)]
    rfl
  · intro outlen key hash h
    rw [sgns_blake2b, hashChunks_eq] at h
    split_ifs at h
    rw [← Option.some.inj h]
    exact digest_length _ _ _ _

/-- The test vector of the standard. -/
example : (sgns_blake2b 64 [] [0x61, 0x62, 0x63]).map (List.take 8) =
    some [0xba, 0x80, 0xa5, 0x3f, 0x98, 0x1c, 0x4d, 0x0d] := by decide +kernel

end IpfsLite.Blake2
