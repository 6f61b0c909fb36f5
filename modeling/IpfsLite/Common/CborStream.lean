import IpfsLite.Common.CborBuffering

/-! # `CborStream`

Reading items from a stream (`common/libp2p/cbor_stream.cpp`). The stream hands out its bytes in
chunks; what is read past the end of an item stays in the buffer for the next call. -/
namespace IpfsLite.Common
set_option autoImplicit false

open Cbor (Items)

structure CborStream where
  buffering : CborBuffering
  buffer : Bytes
  size : ℕ

namespace CborStream

def kReserveBytes : ℕ := 4 <<< 10

def init : CborStream := ⟨.init, [], 0⟩

/-- What the callback of a read gets. -/
inductive Outcome where
  | item (bytes : Bytes)
  | error (e : CborBuffering.Error)
  /-- the stream has no more chunks and the read is pending -/
  | pending
  deriving DecidableEq, Repr

/-- `std::vector::resize`. -/
def resize (buffer : Bytes) (n : ℕ) : Bytes :=
  buffer.take n ++ List.replicate (n - buffer.length) 0

/-- A chunk of the stream is read into the reserve behind the first `size` bytes. -/
def readSome (s : CborStream) (chunk : Bytes) : CborStream :=
  let reserved := resize s.buffer (s.size + kReserveBytes)
  let written := reserved.take s.size ++ chunk ++ reserved.drop (s.size + chunk.length)
  { s with buffer := resize written (s.size + chunk.length) }

/-- The buffering part of `consume`. -/
def advance (s : CborStream) (input : Bytes) : Except CborBuffering.Error CborStream :=
  (s.buffering.consume input).map fun (consumed, buffering) =>
    { s with buffering := buffering, size := s.size + consumed }

/-- What the read ends with, and the chunks that it has not asked for. -/
def readMore (s : CborStream) : List Bytes → Outcome × CborStream × List Bytes
  | [] => if s.buffering.done then (.item (s.buffer.take s.size), s, []) else (.pending, s, [])
  | chunk :: chunks =>
    if s.buffering.done then (.item (s.buffer.take s.size), s, chunk :: chunks)
    else
      let s := s.readSome chunk
      match s.advance (s.buffer.drop s.size) with
      | .error e => (.error e, s, chunks)
      | .ok s => readMore s chunks

def consume (s : CborStream) (input : Bytes) (chunks : List Bytes) : Outcome × CborStream × List Bytes :=
  match s.advance input with
  | .error e => (.error e, s, chunks)
  | .ok s => readMore s chunks

def readRaw (s : CborStream) (chunks : List Bytes) : Outcome × CborStream × List Bytes :=
  let buffer := s.buffer.drop s.size
  consume ⟨s.buffering.reset, buffer, 0⟩ buffer chunks

/-- So many calls of `readRaw`, one after the other. -/
def reads : ℕ → CborStream → List Bytes → List Outcome × CborStream × List Bytes
  | 0, s, chunks => ([], s, chunks)
  | n + 1, s, chunks =>
    let (outcome, s, chunks) := s.readRaw chunks
    let (outcomes, s, chunks) := reads n s chunks
    (outcome :: outcomes, s, chunks)

/-! ## One read -/

theorem resize_of_le {buffer : Bytes} {n : ℕ} (h : buffer.length ≤ n) :
    resize buffer n = buffer ++ List.replicate (n - buffer.length) 0 := by
  rw [resize, List.take_of_length_le h]

theorem resize_left (a b : Bytes) {n : ℕ} (h : n = a.length) : resize (a ++ b) n = a := by
  rw [resize, h, List.take_left, List.length_append, Nat.sub_eq_zero_of_le (Nat.le_add_right _ _)]
  exact List.append_nil a

theorem readSome_full {s : CborStream} (h : s.size = s.buffer.length) (chunk : Bytes) :
    s.readSome chunk = { s with buffer := s.buffer ++ chunk } := by
  have htake : (resize s.buffer (s.size + kReserveBytes)).take s.size = s.buffer := by
    rw [resize_of_le (h ▸ Nat.le_add_right _ _), h, List.take_left]
  rw [readSome, htake, resize_left _ _ (by rw [List.length_append, h])]

/-- Before `readMore`: a read that is not done has consumed the whole buffer. -/
structure Ready (s : CborStream) : Prop where
  sound : s.buffering.Sound
  within : s.size ≤ s.buffer.length
  full : ¬ s.buffering.done = true → s.size = s.buffer.length

/-- The bytes that have been taken from the stream and not delivered, and those still on it. -/
def left (s : CborStream) (chunks : List Bytes) : Bytes := s.buffer.drop s.size ++ chunks.flatten

/-- The item that is being read ends before `rest`. -/
def Ends (s : CborStream) (chunks : List Bytes) (rest : Bytes) : Prop :=
  CborBuffering.feed s.buffering (s.left chunks) = .ok (.init, rest)

theorem advance_spec {s : CborStream} {got input : Bytes} {chunks : List Bytes} {rest : Bytes}
    (hs : s.buffering.Sound) (hbuffer : s.buffer = got ++ input) (hsize : s.size = got.length)
    (h : s.Ends chunks rest) :
    ∃ s', s.advance input = .ok s' ∧ s'.Ready ∧ s'.buffer = s.buffer ∧ s'.Ends chunks rest := by
  have hdrop : s.buffer.drop s.size = input := by rw [hbuffer, hsize, List.drop_left]
  rw [Ends, left, hdrop, CborBuffering.feed_append] at h
  rw [advance, CborBuffering.consume_eq hs]
  cases hfeed : CborBuffering.feed s.buffering input with
  | error e => simp [hfeed, Except.bind] at h
  | ok next =>
    obtain ⟨t, rest'⟩ := next
    rw [hfeed] at h
    obtain ⟨used, rfl, hdone⟩ := CborBuffering.feed_suffix hfeed
    have hused : (used ++ rest').length - rest'.length = used.length := by
      rw [List.length_append, Nat.add_sub_cancel]
    refine ⟨_, rfl, ⟨CborBuffering.feed_sound hs hfeed, ?_, ?_⟩, rfl, ?_⟩
    · simp only [hsize, hbuffer, List.length_append]
      omega
    · intro hnot
      have hnil : rest' = [] := by_contra fun hne => hnot (hdone hne)
      simp [hsize, hbuffer, hnil]
    · have hdrop' : (got ++ (used ++ rest')).drop (got.length + used.length) = rest' := by
        rw [← List.append_assoc, ← List.length_append, List.drop_left]
      simp only [Ends, left, hused, hsize, hbuffer, hdrop']
      exact h

/-- The read delivers the bytes up to the end of the item and keeps the rest. -/
theorem readMore_spec {s : CborStream} {chunks : List Bytes} {rest : Bytes} (hs : s.Ready)
    (h : s.Ends chunks rest) :
    ∃ item s' chunks', s.readMore chunks = (.item item, s', chunks') ∧ s'.buffering = .init ∧
      s'.left chunks' = rest ∧ s.buffer ++ chunks.flatten = item ++ rest := by
  induction chunks generalizing s with
  | nil =>
    by_cases hdone : s.buffering.done = true
    · rw [Ends, CborBuffering.feed_of_done hdone] at h
      obtain ⟨hinit, hrest⟩ := Prod.mk.injEq .. ▸ Except.ok.inj h
      refine ⟨s.buffer.take s.size, s, [], by rw [readMore, if_pos hdone], hinit, hrest, ?_⟩
      rw [← hrest, left, ← List.append_assoc, List.take_append_drop]
    · rw [Ends, left, hs.full hdone, List.drop_length] at h
      obtain ⟨hinit, -⟩ := Prod.mk.injEq .. ▸ Except.ok.inj h
      exact absurd (hinit ▸ (by decide : CborBuffering.init.done = true)) hdone
  | cons chunk chunks ih =>
    by_cases hdone : s.buffering.done = true
    · rw [Ends, CborBuffering.feed_of_done hdone] at h
      obtain ⟨hinit, hrest⟩ := Prod.mk.injEq .. ▸ Except.ok.inj h
      refine ⟨s.buffer.take s.size, s, chunk :: chunks, by rw [readMore, if_pos hdone], hinit, hrest, ?_⟩
      rw [← hrest, left, ← List.append_assoc, List.take_append_drop]
    · have hfull := hs.full hdone
      have hends : ({ s with buffer := s.buffer ++ chunk } : CborStream).Ends chunks rest := by
        rw [Ends, left, hfull, List.drop_length, List.nil_append, List.flatten_cons] at h
        rw [Ends, left, hfull, List.drop_left]
        exact h
      obtain ⟨s', hadvance, hready, hbuffer, hends'⟩ :=
        advance_spec (s := { s with buffer := s.buffer ++ chunk }) hs.sound rfl hfull hends
      obtain ⟨item, s'', chunks', hread, hinit, hleft, hbytes⟩ := ih hready hends'
      refine ⟨item, s'', chunks', ?_, hinit, hleft, ?_⟩
      · rw [readMore, if_neg hdone, readSome_full hfull]
        simp only [hfull, List.drop_left] at hadvance ⊢
        rw [hadvance]
        exact hread
      · rw [hbuffer] at hbytes
        rw [List.flatten_cons, ← List.append_assoc]
        exact hbytes

theorem readRaw_spec {s : CborStream} {chunks : List Bytes} {item rest : Bytes}
    (hs : s.buffering = .init) (hitem : Items (2 ^ 64) false 1 item)
    (hleft : s.left chunks = item ++ rest) :
    ∃ s' chunks', s.readRaw chunks = (.item item, s', chunks') ∧ s'.buffering = .init ∧
      s'.left chunks' = rest := by
  have hends : (⟨s.buffering.reset, s.buffer.drop s.size, 0⟩ : CborStream).Ends chunks rest := by
    rw [Ends, left, List.drop_zero, ← left, hleft, hs, CborBuffering.feed_item hitem]
    rfl
  have hsound : s.buffering.reset.Sound := hs ▸ CborBuffering.init_sound.reset
  obtain ⟨s', hadvance, hready, hbuffer, hends'⟩ :=
    advance_spec (s := ⟨s.buffering.reset, s.buffer.drop s.size, 0⟩) hsound
      (List.nil_append (s.buffer.drop s.size)).symm rfl hends
  obtain ⟨bytes, s'', chunks', hread, hinit, hrest, hbytes⟩ := readMore_spec hready hends'
  rw [hbuffer] at hbytes
  have hsame : bytes = item := List.append_cancel_right (hbytes.symm.trans hleft)
  subst hsame
  refine ⟨s'', chunks', ?_, hinit, hrest⟩
  rw [readRaw, consume, hadvance]
  exact hread

theorem reads_spec {s : CborStream} {items chunks : List Bytes} {rest : Bytes}
    (hs : s.buffering = .init) (hitems : ∀ b ∈ items, Items (2 ^ 64) false 1 b)
    (hleft : s.left chunks = items.flatten ++ rest) :
    ∃ s' chunks', s.reads items.length chunks = (items.map .item, s', chunks') ∧
      s'.left chunks' = rest := by
  induction items generalizing s chunks with
  | nil => exact ⟨s, chunks, rfl, hleft⟩
  | cons item items ih =>
    rw [List.flatten_cons, List.append_assoc] at hleft
    obtain ⟨s', chunks', hread, hinit, hleft'⟩ := readRaw_spec hs (hitems item List.mem_cons_self) hleft
    obtain ⟨s'', chunks'', hreads, hrest⟩ :=
      ih hinit (fun b hb => hitems b (List.mem_cons_of_mem item hb)) hleft'
    refine ⟨s'', chunks'', ?_, hrest⟩
    rw [List.length_cons, reads, hread]
    simp only [hreads, List.map_cons]

/-- **Framing.** However the stream cuts the bytes of the items into chunks, the reads deliver the
items, and what follows them is still there. -/
theorem reads_frames (items chunks : List Bytes) (rest : Bytes)
    (hitems : ∀ b ∈ items, Items (2 ^ 64) false 1 b)
    (hbytes : chunks.flatten = items.flatten ++ rest) :
    ∃ s' chunks', init.reads items.length chunks = (items.map .item, s', chunks') ∧
      s'.left chunks' = rest :=
  reads_spec rfl hitems hbytes

/-- Two items in three chunks: a tagged list that holds a string and a long number, and a number whose
head is cut in the middle; one byte more has been read. -/
theorem list_and_number_framed :
    ∃ s' chunks', init.reads 2 [[0xd8, 0x2a, 0x82, 0x63], [0x66, 0x6f, 0x6f, 0x18, 0x80, 0x19, 0x01],
        [0x00, 0x05]] =
      ([.item [0xd8, 0x2a, 0x82, 0x63, 0x66, 0x6f, 0x6f, 0x18, 0x80], .item [0x19, 0x01, 0x00]],
        s', chunks') ∧ s'.left chunks' = [0x05] := by
  have hlong := @Items.integer (2 ^ 64) .unsigned ⟨.one, 0x80, by decide⟩ _ _ _ (.inl rfl) .nil
  have hfoo := @Items.string _ .text ⟨.inline, 3, by decide⟩ [0x66, 0x6f, 0x6f] _ _ _ (.inr rfl) rfl hlong
  have hlist := Items.array (p := false) (a := ⟨.inline, 2, by decide⟩) (by decide) hfoo .nil
  have htag := Items.tag (a := ⟨.one, 0x2a, by decide⟩) hlist .nil
  have hnumber := @Items.integer (2 ^ 64) .unsigned ⟨.two, 0x100, by decide⟩ _ _ _ (.inl rfl) .nil
  refine reads_frames [[0xd8, 0x2a, 0x82, 0x63, 0x66, 0x6f, 0x6f, 0x18, 0x80], [0x19, 0x01, 0x00]]
    [[0xd8, 0x2a, 0x82, 0x63], [0x66, 0x6f, 0x6f, 0x18, 0x80, 0x19, 0x01], [0x00, 0x05]] [0x05] ?_ (by decide)
  intro b hb
  rcases List.mem_cons.mp hb with rfl | hb
  · exact htag
  · rw [List.mem_singleton.mp hb]
    exact hnumber

end CborStream
end IpfsLite.Common
