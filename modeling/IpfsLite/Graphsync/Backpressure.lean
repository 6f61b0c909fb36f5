import IpfsLite.Graphsync.SizeLimit
import IpfsLite.Graphsync.WriteQueue

/-! # The bound on pending bytes

Requests and responses for one peer share the queue of a stream, and each sender compares with
`kMaxPendingBytes` in its own way: the `OutboundEndpoint` counts the new request, a flush of the
`InboundEndpoint` only looks whether the bound is exceeded already, and the requests that waited for
the connection are handed over unseen. -/
namespace IpfsLite.Graphsync
set_option autoImplicit false

namespace MessageQueue

/-- The loop of `onConnected`. -/
def handOver (closedForWrite : Bool) (q : MessageQueue) (waiting : List Bytes) : MessageQueue :=
  waiting.foldl (fun q data => (q.enqueue closedForWrite data).1) q

/-- What the loop adds to `pending_bytes`: everything when a write is running, and everything but
the first buffer when the queue is idle. -/
def handOverBytes (closedForWrite : Bool) (q : MessageQueue) (waiting : List Bytes) : ℕ :=
  if q.active = false then 0
  else if 0 < q.writingBytes then sizes waiting
  else if closedForWrite then 0
  else sizes waiting.tail

theorem enqueue_busy {closed : Bool} {q : MessageQueue} {data : Bytes} (hactive : q.active = true)
    (hbusy : 0 < q.writingBytes) (hdata : data ≠ []) :
    (q.enqueue closed data).1 =
      { q with
          pendingBytes := q.pendingBytes + data.length
          pendingBuffers := q.pendingBuffers ++ [data] } := by
  have hready : ¬(data = [] ∨ q.active = false) := by simp [hdata, hactive]
  rw [enqueue, if_neg hready, if_pos hbusy]

theorem handOver_busy {closed : Bool} {waiting : List Bytes} {q : MessageQueue}
    (hactive : q.active = true) (hbusy : 0 < q.writingBytes) (hne : ∀ data ∈ waiting, data ≠ []) :
    (handOver closed q waiting).pendingBytes = q.pendingBytes + sizes waiting := by
  induction waiting generalizing q with
  | nil => rfl
  | cons data waiting ih =>
    have hfirst := @enqueue_busy closed _ _ hactive hbusy (hne data List.mem_cons_self)
    have htail : ∀ b ∈ waiting, b ≠ [] := fun b hb => hne b (List.mem_cons_of_mem data hb)
    have hrest := ih (q := { q with
      pendingBytes := q.pendingBytes + data.length
      pendingBuffers := q.pendingBuffers ++ [data] }) hactive hbusy htail
    rw [handOver, List.foldl_cons, hfirst]
    exact hrest.trans (Nat.add_assoc _ _ _)

theorem handOver_unchanged {closed : Bool} {waiting : List Bytes} {q : MessageQueue}
    (h : ∀ data ∈ waiting, (q.enqueue closed data).1 = q) : handOver closed q waiting = q := by
  induction waiting with
  | nil => rfl
  | cons data waiting ih =>
    rw [handOver, List.foldl_cons, h data List.mem_cons_self]
    exact ih fun b hb => h b (List.mem_cons_of_mem data hb)

theorem handOver_pendingBytes {closed : Bool} {waiting : List Bytes} {q : MessageQueue}
    (hne : ∀ data ∈ waiting, data ≠ []) :
    (handOver closed q waiting).pendingBytes = q.pendingBytes + handOverBytes closed q waiting := by
  unfold handOverBytes
  by_cases hactive : q.active = false
  · rw [if_pos hactive, handOver_unchanged fun data _ => by rw [enqueue, if_pos (.inr hactive)]]
    rfl
  rw [if_neg hactive]
  have hactive' : q.active = true := by simpa using hactive
  by_cases hbusy : 0 < q.writingBytes
  · rw [if_pos hbusy, handOver_busy hactive' hbusy hne]
  rw [if_neg hbusy]
  have hready : ∀ data ∈ waiting, ¬(data = [] ∨ q.active = false) := fun data hd =>
    not_or.mpr ⟨hne data hd, hactive⟩
  cases closed with
  | true =>
    rw [if_pos rfl, handOver_unchanged fun data hd => by
      rw [enqueue, if_neg (hready data hd), if_neg hbusy]
      rfl]
    rfl
  | false =>
    rw [if_neg Bool.false_ne_true]
    cases waiting with
    | nil => rfl
    | cons data waiting =>
      have hfirst : (q.enqueue false data).1 = { q with writingBytes := data.length } := by
        rw [enqueue, if_neg (hready data List.mem_cons_self), if_neg hbusy]
        rfl
      have hpos := List.length_pos_of_ne_nil (hne data List.mem_cons_self)
      have htail : ∀ b ∈ waiting, b ≠ [] := fun b hb => hne b (List.mem_cons_of_mem data hb)
      rw [handOver, List.foldl_cons, hfirst]
      exact handOver_busy (q := { q with writingBytes := data.length }) hactive' hpos htail

theorem enqueue_idle {closed : Bool} {q : MessageQueue} (data : Bytes)
    (h : ¬(q.active = true ∧ 0 < q.writingBytes)) :
    (q.enqueue closed data).1.pendingBytes = q.pendingBytes := by
  unfold enqueue
  by_cases hignored : data = [] ∨ q.active = false
  · rw [if_pos hignored]
  rw [if_neg hignored]
  have hactive : q.active = true := by simpa using (not_or.mp hignored).2
  have hbusy : ¬0 < q.writingBytes := fun hbusy => h ⟨hactive, hbusy⟩
  rw [if_neg hbusy]
  cases closed <;> rfl

/-- A completed write never adds to what is pending. -/
theorem onMessageWritten_pendingBytes (closed : Bool) (q : MessageQueue) (res : WriteResult) :
    (q.onMessageWritten closed res).1.pendingBytes ≤ q.pendingBytes := by
  unfold onMessageWritten
  by_cases hactive : q.active = false
  · rw [if_pos hactive]
  rw [if_neg hactive]
  cases res with
  | error => exact le_refl _
  | written n =>
    by_cases hn : q.writingBytes ≠ n
    · simp only [if_pos hn, le_refl]
    · simp only [if_neg hn]
      unfold dequeue
      cases q.pendingBuffers with
      | nil => exact le_refl _
      | cons buffer rest =>
        cases closed <;> exact Nat.sub_le _ _

end MessageQueue

/-! ## The two endpoints of a stream -/

/-- The endpoints that share a queue; the queue is kept with the inbound one. -/
structure Sharing where
  outbound : OutboundEndpoint
  inbound : InboundEndpoint

namespace Sharing

def create (stream : StreamPtr) : Sharing := ⟨.initial, .create stream⟩

abbrev queue (s : Sharing) : MessageQueue := s.inbound.queue

def setQueue (s : Sharing) (q : MessageQueue) : Sharing := { s with inbound := { s.inbound with queue := q } }

inductive Op where
  /-- `OutboundEndpoint::enqueue` -/
  | enqueue (closedForWrite : Bool) (data : Bytes)
  | onConnected (closedForWrite : Bool) (stream : StreamPtr)
  | addBlockToResponse (closedForWrite : Bool) (id : RequestId) (cid : CID) (data : Bytes)
  | sendResponse (closedForWrite : Bool) (id : RequestId) (status : ResponseStatusCode)
      (extensions : List Extension)
  | messageWritten (closedForWrite : Bool) (res : MessageQueue.WriteResult)

def enqueue (closedForWrite : Bool) (s : Sharing) (data : Bytes) : Sharing :=
  if data = [] then s
  else if s.outbound.overflows (fun _ => s.queue) data then s
  else
    match s.outbound with
    | .connecting buffers bytes =>
      { s with outbound := .connecting (buffers ++ [data]) (bytes + data.length) }
    | .connected _ => s.setQueue (s.queue.enqueue closedForWrite data).1

def onConnected (closedForWrite : Bool) (s : Sharing) (stream : StreamPtr) : Sharing :=
  { s.setQueue (s.queue.handOver closedForWrite s.outbound.waiting) with outbound := .connected stream }

def apply (s : Sharing) : Op → Sharing
  | .enqueue closed data => s.enqueue closed data
  | .onConnected closed stream => s.onConnected closed stream
  | .addBlockToResponse closed id cid data =>
    { s with inbound := (s.inbound.addBlockToResponse closed id cid data).1 }
  | .sendResponse closed id status extensions =>
    { s with inbound := (s.inbound.sendResponse closed id status extensions).1 }
  | .messageWritten closed res => s.setQueue (s.queue.onMessageWritten closed res).1

def step (s : Sharing) (op : Op) : Option Sharing := some (s.apply op)

/-- The backpressure bound. -/
def Bounded (s : Sharing) : Prop := s.queue.pendingBytes ≤ kMaxPendingBytes

/-- The message that a flush puts behind a running write fits into what is left of the bound. -/
def FlushRoom (e : InboundEndpoint) (id : RequestId) (status : ResponseStatusCode)
    (extensions : List Extension) : Prop :=
  ∀ size ∈ e.flushedSize id status extensions, e.queue.active = true → 0 < e.queue.writingBytes →
    e.queue.pendingBytes + ((Varint.encode size).length + size) ≤ kMaxPendingBytes

instance (e : InboundEndpoint) (id : RequestId) (status : ResponseStatusCode)
    (extensions : List Extension) : Decidable (FlushRoom e id status extensions) :=
  inferInstanceAs (Decidable (∀ size ∈ e.flushedSize id status extensions, _ → _ → _))

/-- There is room for what the call is going to add. -/
def Room (s : Sharing) : Op → Prop
  | .enqueue _ _ => True
  | .onConnected closed _ =>
    s.queue.pendingBytes + s.queue.handOverBytes closed s.outbound.waiting ≤ kMaxPendingBytes
  | .addBlockToResponse _ id _ data =>
    s.inbound.overflows data = false → s.inbound.needsSplit data = true →
      FlushRoom s.inbound id .partialContent []
  | .sendResponse _ id status extensions => FlushRoom s.inbound id status extensions
  | .messageWritten _ _ => True

/-! ## Every step keeps the bound exactly when there is room -/

theorem flush_bounded {e : InboundEndpoint} (h : e.queue.pendingBytes ≤ kMaxPendingBytes) (closed : Bool)
    (id : RequestId) (status : ResponseStatusCode) (extensions : List Extension) :
    (e.flush closed (e.responseBuilder.addResponse id status extensions)).1.queue.pendingBytes ≤
        kMaxPendingBytes ↔ FlushRoom e id status extensions := by
  have hsize := MessageBuilder.getSerializedSize_addResponse e.responseBuilder id status extensions
  unfold MessageBuilder.getSerializedSize at hsize
  have hroom : ¬kMaxPendingBytes < e.queue.pendingBytes := Nat.not_lt.mpr h
  unfold InboundEndpoint.flush MessageBuilder.serialize FlushRoom InboundEndpoint.flushedSize
    MessageBuilder.getSerializedSize
  rw [hsize]
  generalize hn : e.responseBuilder.pbMsg.byteSizeLong + MessageBuilder.responseSize id status extensions = n
  rw [hn] at hsize
  by_cases hint : n < 2 ^ 31
  · rw [if_pos hint]
    simp only [if_neg hroom, if_pos (And.intro hint h), Option.mem_some_iff, forall_eq']
    set body := (e.responseBuilder.addResponse id status extensions).pbMsg.body
    have hlen : (Varint.encode n ++ body).length = (Varint.encode n).length + n := by
      rw [List.length_append, ← hsize]
      rfl
    have hne : Varint.encode n ++ body ≠ [] := by
      intro hnil
      exact Varint.encode_ne_nil n (List.append_eq_nil_iff.mp hnil).1
    by_cases hbusy : e.queue.active = true ∧ 0 < e.queue.writingBytes
    · rw [MessageQueue.enqueue_busy hbusy.1 hbusy.2 hne, hlen]
      exact ⟨fun hle _ _ => hle, fun hle => hle hbusy.1 hbusy.2⟩
    · rw [MessageQueue.enqueue_idle _ hbusy]
      exact ⟨fun _ hactive hwriting => absurd ⟨hactive, hwriting⟩ hbusy, fun _ => h⟩
  · rw [if_neg hint]
    have hnone : ¬(n < 2 ^ 31 ∧ e.queue.pendingBytes ≤ kMaxPendingBytes) := fun hboth => hint hboth.1
    rw [if_neg hnone]
    exact iff_of_true h fun size hsize => by cases hsize

theorem addBlockToResponse_bounded {e : InboundEndpoint} (h : e.queue.pendingBytes ≤ kMaxPendingBytes)
    (closed : Bool) (id : RequestId) (cid : CID) (data : Bytes) :
    (e.addBlockToResponse closed id cid data).1.queue.pendingBytes ≤ kMaxPendingBytes ↔
      (e.overflows data = false → e.needsSplit data = true → FlushRoom e id .partialContent []) := by
  unfold InboundEndpoint.addBlockToResponse
  by_cases hover : e.overflows data = true
  · simp [hover, h]
  by_cases hsplit : e.needsSplit data = true
  · have hflush := flush_bounded h closed id .partialContent []
    rw [← InboundEndpoint.sendPartialResponse] at hflush
    simp only [hover, hsplit, Bool.false_eq_true, if_false, if_true, forall_const]
    rcases he : e.sendPartialResponse closed id with ⟨e', _ | _⟩
    · rw [he] at hflush
      exact hflush
    · rw [he] at hflush
      exact hflush
  · simp [hover, hsplit, h, InboundEndpoint.addDataBlock]

theorem enqueue_bounded {s : Sharing} (h : s.Bounded) (closed : Bool) (data : Bytes) :
    (s.enqueue closed data).Bounded := by
  unfold enqueue
  by_cases hdata : data = []
  · rw [if_pos hdata]
    exact h
  rw [if_neg hdata]
  by_cases hover : s.outbound.overflows (fun _ => s.queue) data = true
  · rw [if_pos hover]
    exact h
  rw [if_neg hover]
  cases hout : s.outbound with
  | connecting buffers bytes => exact h
  | connected stream =>
    -- the endpoint has counted the new request
    have hfits : s.queue.pendingBytes + data.length ≤ kMaxPendingBytes := by
      simp only [OutboundEndpoint.overflows, hout, OutboundEndpoint.pendingBytes, hdata, ne_eq,
        not_false_eq_true, decide_true, Bool.true_and, decide_eq_true_eq] at hover
      exact Nat.le_of_not_lt hover
    show (s.queue.enqueue closed data).1.pendingBytes ≤ kMaxPendingBytes
    by_cases hbusy : s.queue.active = true ∧ 0 < s.queue.writingBytes
    · rw [MessageQueue.enqueue_busy hbusy.1 hbusy.2 hdata]
      exact hfits
    · rw [MessageQueue.enqueue_idle _ hbusy]
      exact h

/-- The endpoint keeps no empty buffer. -/
def Waiting (s : Sharing) : Prop := ∀ data ∈ s.outbound.waiting, data ≠ []

theorem waiting_apply {s : Sharing} (h : s.Waiting) (op : Op) : (s.apply op).Waiting := by
  cases op with
  | enqueue closed data =>
    simp only [apply, enqueue]
    by_cases hdata : data = []
    · rw [if_pos hdata]
      exact h
    rw [if_neg hdata]
    by_cases hover : s.outbound.overflows (fun _ => s.queue) data = true
    · rw [if_pos hover]
      exact h
    rw [if_neg hover]
    unfold Waiting at h ⊢
    cases hout : s.outbound with
    | connecting buffers bytes =>
      rw [hout] at h
      intro b hb
      rcases List.mem_append.mp hb with hb | hb
      · exact h b hb
      · exact List.mem_singleton.mp hb ▸ hdata
    | connected stream =>
      rw [hout] at h
      simp only [setQueue, hout]
      exact h
  | onConnected closed stream => exact fun b hb => absurd hb List.not_mem_nil
  | addBlockToResponse closed id cid data => exact h
  | sendResponse closed id status extensions => exact h
  | messageWritten closed res => exact h

theorem apply_bounded {s : Sharing} (hw : s.Waiting) (h : s.Bounded) (op : Op) :
    (s.apply op).Bounded ↔ s.Room op := by
  cases op with
  | enqueue closed data => exact iff_of_true (enqueue_bounded h closed data) trivial
  | onConnected closed stream =>
    rw [Room, ← MessageQueue.handOver_pendingBytes hw]
    rfl
  | addBlockToResponse closed id cid data => exact addBlockToResponse_bounded h closed id cid data
  | sendResponse closed id status extensions => exact flush_bounded h closed id status extensions
  | messageWritten closed res =>
    refine iff_of_true ?_ trivial
    exact (MessageQueue.onMessageWritten_pendingBytes closed s.queue res).trans h

/-- **Backpressure.** The bound holds in every state of a run if and only if every flush and every
hand-over of the run finds room for what it puts behind a running write. -/
theorem bounded_iff_room (stream : StreamPtr) (ops : List Op) :
    Runs.EveryState step Bounded (create stream) ops ↔ Runs.EveryStep step Room (create stream) ops := by
  refine Runs.everyState_iff_everyStep Waiting ?_ ?_ (fun b hb => absurd hb List.not_mem_nil) (Nat.zero_le _)
  · intro s op s' hw hs
    cases hs
    exact waiting_apply hw op
  · intro s op hw h
    rw [← apply_bounded hw h op]
    exact ⟨fun hall => hall _ rfl, fun hb s' hs' => by cases hs'; exact hb⟩

/-! ## Requests that fill the queue -/

/-- One buffer is being written and `n` others wait. -/
def loaded (data : Bytes) (n : ℕ) : Sharing :=
  ⟨.connected 0, { InboundEndpoint.create 0 with
    queue := ⟨0, kMaxMessageSize, n * kMaxMessageSize, 0, true, List.replicate n data⟩ }⟩

theorem loaded_enqueue {data : Bytes} (h : data.length = kMaxMessageSize) {n : ℕ} (hn : n < 4) :
    (loaded data n).apply (.enqueue false data) = loaded data (n + 1) := by
  have hdata : data ≠ [] := by
    rintro rfl
    exact absurd h (by decide)
  have hover : ¬(OutboundEndpoint.connected 0).overflows (fun _ => (loaded data n).queue) data = true := by
    simp only [OutboundEndpoint.overflows, OutboundEndpoint.pendingBytes, loaded, queue, hdata, h, ne_eq,
      not_false_eq_true, decide_true, Bool.true_and, decide_eq_true_eq, kMaxPendingBytes, kMaxMessageSize]
    omega
  have hbusy : 0 < (loaded data n).queue.writingBytes := show 0 < kMaxMessageSize by decide
  have hqueue := @MessageQueue.enqueue_busy false (loaded data n).queue _ rfl hbusy hdata
  have hbytes : n * kMaxMessageSize + data.length = (n + 1) * kMaxMessageSize := by
    rw [h, Nat.add_mul, Nat.one_mul]
  have hbuffers : List.replicate n data ++ [data] = List.replicate (n + 1) data :=
    List.replicate_succ'.symm
  simp only [loaded, queue] at hqueue
  simp only [apply, enqueue, if_neg hdata]
  rw [if_neg (by exact hover)]
  simp only [loaded, setQueue, queue, hqueue, hbytes, hbuffers]

/-- Five requests of the largest size, the first of which is being written, and a response. -/
def crowdedQueue : List Op :=
  .onConnected false 0 :: (List.replicate 5 (.enqueue false (List.replicate kMaxMessageSize 0)) ++
    [.sendResponse false 1 .fullContent []])

theorem first_enqueue {data : Bytes} (h : data.length = kMaxMessageSize) :
    ((create 0).apply (.onConnected false 0)).apply (.enqueue false data) = loaded data 0 := by
  have hdata : data ≠ [] := by
    rintro rfl
    exact absurd h (by decide)
  have hover : ¬kMaxPendingBytes < kMaxMessageSize := by decide
  simp [hover, apply, enqueue, onConnected, create, loaded, setQueue, hdata, h, OutboundEndpoint.overflows,
    OutboundEndpoint.pendingBytes, OutboundEndpoint.initial, OutboundEndpoint.waiting, InboundEndpoint.create,
    MessageQueue.create, MessageQueue.handOver, MessageQueue.enqueue, MessageQueue.beginWrite]

/-- A queue that is full to the last byte takes a response all the same. -/
theorem crowded_queue_exceeds :
    (∀ closed data, .enqueue closed data ∈ crowdedQueue → data.length ≤ kMaxMessageSize) ∧
      MessageBuilder.responseSize 1 .fullContent [] ≤ kMaxMessageSize ∧
      ¬Runs.EveryState step Bounded (create 0) crowdedQueue := by
  refine ⟨?_, by decide, ?_⟩
  · intro closed data hmem
    simp only [crowdedQueue, List.mem_cons, List.mem_append, List.mem_replicate, reduceCtorEq, false_or,
      List.not_mem_nil, or_false, Op.enqueue.injEq] at hmem
    rw [hmem.2.2, List.length_replicate]
  · intro hall
    have hlen : (List.replicate kMaxMessageSize 0 : Bytes).length = kMaxMessageSize := List.length_replicate
    generalize hdata : (List.replicate kMaxMessageSize 0 : Bytes) = data at hlen
    have hrun : Runs.run step (create 0) crowdedQueue =
        some ((loaded data 4).apply (.sendResponse false 1 .fullContent [])) := by
      rw [crowdedQueue, hdata]
      show some (((((((create 0).apply (.onConnected false 0)).apply (.enqueue false data)).apply
        (.enqueue false data)).apply (.enqueue false data)).apply (.enqueue false data)).apply
        (.enqueue false data) |>.apply (.sendResponse false 1 .fullContent [])) = _
      rw [first_enqueue hlen, loaded_enqueue hlen (by decide), loaded_enqueue hlen (by decide),
        loaded_enqueue hlen (by decide), loaded_enqueue hlen (by decide)]
    have hlast := @Runs.EveryState.run _ _ _ _ _ _ _ [] (by rwa [List.append_nil]) hrun
    have hfull : (loaded data 4).Bounded := by
      show 4 * kMaxMessageSize ≤ kMaxPendingBytes
      decide
    have hroom := (flush_bounded (e := (loaded data 4).inbound) hfull false 1 .fullContent []).mp hlast
    have hbusy : 0 < (loaded data 4).inbound.queue.writingBytes := show 0 < kMaxMessageSize by decide
    have hexcess : ¬4 * kMaxMessageSize + ((Varint.encode (MessageBuilder.initial.getSerializedSize +
        MessageBuilder.responseSize 1 .fullContent [])).length + (MessageBuilder.initial.getSerializedSize +
          MessageBuilder.responseSize 1 .fullContent [])) ≤ kMaxPendingBytes := by decide
    exact hexcess (hroom _ rfl rfl hbusy)

end Sharing
end IpfsLite.Graphsync
