import IpfsLite.Foundations.Runs
import IpfsLite.Graphsync.Endpoints

/-! # The size limit of a message

The split test of `addBlockToResponse` compares the serialized size so far plus the raw length of
the new block with `kMaxMessageSize`. What a flush really puts on the wire is larger by the CID
prefix, the tags and lengths of two levels, and the response entry. -/
namespace IpfsLite.Graphsync.InboundEndpoint
set_option autoImplicit false

open MessageBuilder

/-- A peer running this code goes on to read the body of the buffer. -/
def Accepted (buffer : Bytes) : Prop := ∃ length, readLength buffer = .reading length

/-- The body size of the message that a flush enqueues, if it enqueues one. -/
def flushedSize (e : InboundEndpoint) (id : RequestId) (status : ResponseStatusCode)
    (extensions : List Extension) : Option ℕ :=
  let size := e.responseBuilder.getSerializedSize + responseSize id status extensions
  if size < 2 ^ 31 ∧ e.queue.pendingBytes ≤ kMaxPendingBytes then some size else none

/-- The same for a call. -/
def flushedBy (e : InboundEndpoint) : Op → Option ℕ
  | .addBlockToResponse _ id _ data =>
    if e.overflows data = false ∧ e.needsSplit data = true then e.flushedSize id .partialContent []
    else none
  | .sendResponse _ id status extensions => e.flushedSize id status extensions
  | .request _ _ => none
  | .messageWritten _ _ => none

/-- The blocks collected so far leave room for the response entry that the call adds. -/
def Fits (e : InboundEndpoint) (op : Op) : Prop := ∀ size ∈ e.flushedBy op, size ≤ kMaxMessageSize

instance (e : InboundEndpoint) (op : Op) : Decidable (e.Fits op) :=
  inferInstanceAs (Decidable (∀ size ∈ e.flushedBy op, size ≤ kMaxMessageSize))

theorem responseSize_pos (id : RequestId) (status : ResponseStatusCode)
    (extensions : List Extension) : 0 < responseSize id status extensions := by
  unfold responseSize
  exact Nat.lt_of_le_of_lt (Nat.zero_le _) (Wire.le_delimitedSize 3 _)

theorem readLength_serialized {size : ℕ} (h : size < 2 ^ 31) (body : Bytes) :
    readLength (Varint.encode size ++ body) = onLengthRead kMaxMessageSize size := by
  rw [readLength, Varint.decode_encode_append (by omega)]

theorem onLengthRead_reading {size : ℕ} (hpos : 0 < size) :
    (∃ length, onLengthRead kMaxMessageSize size = .reading length) ↔ size ≤ kMaxMessageSize := by
  unfold onLengthRead
  rw [if_neg (by omega)]
  by_cases h : kMaxMessageSize < size
  · rw [if_pos h]
    refine ⟨fun ⟨_, he⟩ => ?_, fun hle => absurd h (by omega)⟩
    cases he
  · rw [if_neg h]
    exact ⟨fun _ => by omega, fun _ => ⟨size, rfl⟩⟩

/-- A flush enqueues one buffer of the announced size, or none. -/
theorem flush_enqueued (closed : Bool) (e : InboundEndpoint) (id : RequestId)
    (status : ResponseStatusCode) (extensions : List Extension) :
    ((e.flush closed (e.responseBuilder.addResponse id status extensions)).1.enqueued = e.enqueued ∧
        e.flushedSize id status extensions = none) ∨
      ∃ buffer size,
        (e.flush closed (e.responseBuilder.addResponse id status extensions)).1.enqueued =
          e.enqueued ++ [buffer] ∧
        e.flushedSize id status extensions = some size ∧
        readLength buffer = onLengthRead kMaxMessageSize size ∧ 0 < size := by
  have hsize := getSerializedSize_addResponse e.responseBuilder id status extensions
  have hpos := responseSize_pos id status extensions
  unfold getSerializedSize at hsize
  unfold flush serialize flushedSize getSerializedSize
  rw [hsize]
  by_cases hint : e.responseBuilder.pbMsg.byteSizeLong + responseSize id status extensions < 2 ^ 31
  · rw [if_pos hint]
    by_cases hroom : kMaxPendingBytes < e.queue.pendingBytes
    · left
      simp only [if_pos hroom, true_and]
      exact if_neg fun h => Nat.not_le.mpr hroom h.2
    · right
      simp only [if_neg hroom]
      exact ⟨_, _, rfl, if_pos ⟨hint, Nat.le_of_not_lt hroom⟩, readLength_serialized hint _, by omega⟩
  · left
    rw [if_neg hint]
    exact ⟨rfl, if_neg fun h => hint h.1⟩

theorem addDataBlock_enqueued (e : InboundEndpoint) (cid : CID) (data : Bytes) :
    (e.addDataBlock cid data).1.enqueued = e.enqueued := rfl

/-- One call enqueues one buffer of the announced size, or none. -/
theorem apply_enqueued (e : InboundEndpoint) (op : Op) :
    ((e.apply op).1.enqueued = e.enqueued ∧ e.flushedBy op = none) ∨
      ∃ buffer size, (e.apply op).1.enqueued = e.enqueued ++ [buffer] ∧
        e.flushedBy op = some size ∧
        readLength buffer = onLengthRead kMaxMessageSize size ∧ 0 < size := by
  cases op with
  | addBlockToResponse closed id cid data =>
    simp only [apply, flushedBy, addBlockToResponse]
    by_cases hover : e.overflows data = true
    · left
      simp [hover]
    by_cases hsplit : e.needsSplit data = true
    · have hflush := flush_enqueued closed e id .partialContent []
      simp only [hover, hsplit, Bool.false_eq_true, if_false, if_true, and_self]
      rw [← sendPartialResponse] at hflush
      rcases he : e.sendPartialResponse closed id with ⟨e', _ | _⟩
      · rw [he] at hflush
        exact hflush
      · rw [he] at hflush
        exact hflush
    · left
      simp [hover, hsplit, addDataBlock_enqueued]
  | sendResponse closed id status extensions => exact flush_enqueued closed e id status extensions
  | request closed buffer => exact .inl ⟨rfl, rfl⟩
  | messageWritten closed res => exact .inl ⟨rfl, rfl⟩

theorem step_accepted (e : InboundEndpoint) (op : Op) :
    (∀ buffer ∈ (e.apply op).1.enqueued, Accepted buffer) ↔
      (∀ buffer ∈ e.enqueued, Accepted buffer) ∧ e.Fits op := by
  rcases apply_enqueued e op with ⟨hsame, hnone⟩ | ⟨buffer, size, hnew, hsome, hread, hpos⟩
  · simp [hsame, Fits, hnone]
  · have hacc : Accepted buffer ↔ size ≤ kMaxMessageSize := by
      rw [Accepted, hread]
      exact onLengthRead_reading hpos
    simp [hnew, Fits, hsome, or_imp, forall_and, hacc]

/-- **Sender and receiver agree on the size limit** exactly in the runs in which every flush leaves
room for what it adds. -/
theorem accepted_iff_fits (stream : StreamPtr) (ops : List Op) {e : InboundEndpoint}
    (hr : Runs.run step (create stream) ops = some e) :
    (∀ buffer ∈ e.enqueued, Accepted buffer) ↔ Runs.EveryStep step Fits (create stream) ops := by
  have hgen : ∀ (ops : List Op) (s : InboundEndpoint), Runs.run step s ops = some e →
      ((∀ buffer ∈ e.enqueued, Accepted buffer) ↔
        (∀ buffer ∈ s.enqueued, Accepted buffer) ∧ Runs.EveryStep step Fits s ops) := by
    intro ops
    induction ops with
    | nil =>
      intro s hs
      rw [Runs.run_nil, Option.some.injEq] at hs
      simp [hs, Runs.EveryStep]
    | cons op ops ih =>
      intro s hs
      have hnext := ih (s.apply op).1 hs
      rw [hnext, step_accepted, and_assoc]
      simp [Runs.EveryStep, step]
  have h := hgen ops (create stream) hr
  simpa [create] using h

/-! ## At the limit -/

/-- A DAG-PB block under sha2-256; the digest plays no part in a size. -/
theorem zeros_bounded : (List.replicate 32 (0 : UInt8)).length ≤ kMaxHashLength := by decide

def sampleCid : CID := ⟨.v1, Multicodec.dagPb, ⟨HashType.sha256, List.replicate 32 0, zeros_bounded⟩⟩

theorem accepted_small_block :
    (∀ buffer ∈ ((Runs.run step (create 0) [.addBlockToResponse false 1 sampleCid [7],
          .sendResponse false 1 .fullContent []]).get rfl).enqueued, Accepted buffer) ↔
      Runs.EveryStep step Fits (create 0) [.addBlockToResponse false 1 sampleCid [7],
        .sendResponse false 1 .fullContent []] :=
  accepted_iff_fits 0 _ rfl

theorem blockSize_full {data : Bytes} (h : data.length = kMaxMessageSize) :
    blockSize sampleCid data = kMaxMessageSize + 16 := by
  simp only [blockSize, h]
  decide

theorem full_block_added {data : Bytes} (h : data.length = kMaxMessageSize) :
    ∃ b, b.getSerializedSize = kMaxMessageSize + 16 ∧
      (create 0).apply (.addBlockToResponse false 1 sampleCid data) = (⟨b, .create 0, [], false⟩, .ok ()) := by
  have hbytes : sampleCid.toBytes.isSome = true := rfl
  have hsize := getSerializedSize_addDataBlock hbytes initial data
  rw [getSerializedSize_initial, blockSize_full h, Nat.zero_add] at hsize
  obtain ⟨d, hd⟩ := Option.isSome_iff_exists.mp hbytes
  have hadded : (initial.addDataBlock sampleCid data).2 = true := by
    rw [addDataBlock_of_toBytes hd]
  have hover : (create 0).overflows data = false := by
    simp only [overflows, create, MessageQueue.create, getSerializedSize_initial, h]
    decide
  have hsplit : (create 0).needsSplit data = false := by
    simp only [needsSplit, create, getSerializedSize_initial, h]
    decide
  refine ⟨_, hsize, ?_⟩
  rw [apply, addBlockToResponse, if_neg (by simp [hover]), if_neg (by simp [hsplit]), addDataBlock]
  simp only [create, hadded, if_true]

theorem full_message_flushed {b : MessageBuilder} (h : b.getSerializedSize = kMaxMessageSize + 16) :
    flushedSize ⟨b, .create 0, [], false⟩ 1 .fullContent [] =
      some (kMaxMessageSize + 16 + responseSize 1 .fullContent []) := by
  simp only [flushedSize, h]
  decide

/-- A block of exactly `kMaxMessageSize` bytes is accepted, and the message it goes into is refused
by the peer. -/
theorem full_block_out_of_bounds :
    ∃ e₁ e₂ buffer,
      (create 0).apply (.addBlockToResponse false 1 sampleCid (List.replicate kMaxMessageSize 0)) =
        (e₁, .ok ()) ∧
      (e₁.apply (.sendResponse false 1 .fullContent [])).1 = e₂ ∧
      e₂.enqueued = [buffer] ∧ readLength buffer = .messageSizeOutOfBounds := by
  obtain ⟨b, hsize, hadd⟩ := full_block_added (List.length_replicate (n := kMaxMessageSize))
  have hflushed := full_message_flushed hsize
  rcases flush_enqueued false ⟨b, .create 0, [], false⟩ 1 .fullContent [] with
    ⟨-, hnone⟩ | ⟨buffer, size, henq, hsome, hread, -⟩
  · rw [hflushed] at hnone
    cases hnone
  · rw [hflushed, Option.some.injEq] at hsome
    refine ⟨_, _, buffer, hadd, rfl, henq, ?_⟩
    rw [hread, ← hsome]
    decide

end IpfsLite.Graphsync.InboundEndpoint
