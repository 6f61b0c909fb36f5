import Mathlib

/-! # Hashing by blocks

A compression function takes the state, the number of symbols so far, a block and whether it is the last. A digest
compresses block after block; the last one, which may be full, is filled up. A stream takes symbol after symbol and
compresses a full buffer when the next symbol comes, as it may be the last until then. -/
namespace IpfsLite.BlockHash
set_option autoImplicit false

variable {σ α : Type}

structure Compression (σ α : Type) where
  block : ℕ
  pos : 0 < block
  zero : α
  compress : σ → ℕ → List α → Bool → σ

variable (C : Compression σ α)

def Compression.fill (last : List α) : List α := last ++ List.replicate (C.block - last.length) C.zero

/-- The digest of a message that follows `offset` symbols. -/
def digest (h : σ) (offset : ℕ) (message : List α) : σ :=
  if message.length ≤ C.block then C.compress h (offset + message.length) (C.fill message) true
  else digest (C.compress h (offset + C.block) (message.take C.block) false) (offset + C.block) (message.drop C.block)
termination_by message.length
decreasing_by
  have := C.pos
  rw [List.length_drop]
  omega

structure Stream (σ α : Type) where
  state : σ
  offset : ℕ
  pending : List α

variable {C}

def Stream.feed (C : Compression σ α) (s : Stream σ α) (x : α) : Stream σ α :=
  if s.pending.length = C.block then ⟨C.compress s.state (s.offset + C.block) s.pending false, s.offset + C.block, [x]⟩
  else ⟨s.state, s.offset, s.pending ++ [x]⟩

def Stream.finish (C : Compression σ α) (s : Stream σ α) : σ :=
  C.compress s.state (s.offset + s.pending.length) (C.fill s.pending) true

theorem digest_small {h : σ} {offset : ℕ} {message : List α} (hle : message.length ≤ C.block) :
    digest C h offset message = C.compress h (offset + message.length) (C.fill message) true := by
  rw [digest, if_pos hle]

/-- A full block with something behind it is not the last. -/
theorem digest_block {h : σ} {offset : ℕ} {first rest : List α} (hfirst : first.length = C.block) (hrest : rest ≠ []) :
    digest C h offset (first ++ rest) =
      digest C (C.compress h (offset + C.block) first false) (offset + C.block) rest := by
  have hpos : 0 < rest.length := List.length_pos_iff.mpr hrest
  rw [digest, if_neg (by rw [List.length_append]; omega), List.take_left' hfirst, List.drop_left' hfirst]

theorem feed_pending {s : Stream σ α} (hs : s.pending.length ≤ C.block) (x : α) :
    (s.feed C x).pending.length ≤ C.block := by
  have hpos := C.pos
  unfold Stream.feed
  split_ifs with hfull
  · exact hpos
  · rw [List.length_append, List.length_singleton]
    omega

theorem digest_feed (s : Stream σ α) (x : α) (xs : List α) :
    digest C (s.feed C x).state (s.feed C x).offset ((s.feed C x).pending ++ xs) =
      digest C s.state s.offset (s.pending ++ x :: xs) := by
  unfold Stream.feed
  split_ifs with hfull
  · exact (digest_block hfull (List.cons_ne_nil x xs)).symm
  · rw [List.append_assoc, List.singleton_append]

/-- **A stream computes the digest** of what stands in its buffer and what it is fed. -/
theorem finish_foldl {s : Stream σ α} (hs : s.pending.length ≤ C.block) (xs : List α) :
    (xs.foldl (Stream.feed C) s).finish C = digest C s.state s.offset (s.pending ++ xs) := by
  induction xs generalizing s with
  | nil =>
    rw [List.append_nil, digest_small hs]
    rfl
  | cons x xs ih => rw [List.foldl_cons, ih (feed_pending hs x), digest_feed]

end IpfsLite.BlockHash
