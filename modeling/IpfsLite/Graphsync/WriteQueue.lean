import IpfsLite.Foundations.Runs
import IpfsLite.Graphsync.Endpoints

/-! # Two queues in a row

A request waits in the `OutboundEndpoint` until there is a stream, then in the `MessageQueue` of the
stream, which other senders use as well, until it is its turn to be written. The stream stays open
and every write that completes has written all of its bytes. -/
namespace IpfsLite.Graphsync
set_option autoImplicit false

def sizes (buffers : List Bytes) : ℕ := (buffers.map List.length).sum

@[simp] theorem sizes_nil : sizes [] = 0 := rfl

@[simp] theorem sizes_cons (b : Bytes) (bs : List Bytes) : sizes (b :: bs) = b.length + sizes bs := rfl

@[simp] theorem sizes_append (as bs : List Bytes) : sizes (as ++ bs) = sizes as + sizes bs := by
  simp [sizes]

namespace OutboundEndpoint

/-- `pending_buffers_`, which is empty once there is a queue. -/
def waiting : OutboundEndpoint → List Bytes
  | .connecting buffers _ => buffers
  | .connected _ => []

/-- `pending_bytes_`. -/
def waitingBytes : OutboundEndpoint → ℕ
  | .connecting _ bytes => bytes
  | .connected _ => 0

end OutboundEndpoint

namespace MessageQueue

/-- What `enqueue` passes to `stream->write`. -/
def enqueueWrites (q : MessageQueue) (data : Bytes) : List Bytes :=
  if data = [] ∨ q.active = false then []
  else if 0 < q.writingBytes then []
  else [data]

/-- What `dequeue` passes to it. -/
def dequeueWrites (q : MessageQueue) : List Bytes := q.pendingBuffers.take 1

end MessageQueue

/-- An endpoint and the queue that it is connected to, or is going to be. -/
structure Link where
  endpoint : OutboundEndpoint
  queue : MessageQueue
  /-- the writes that the stream has not completed -/
  inFlight : List Bytes
  /-- history: the buffers passed to `stream->write` -/
  written : List Bytes
  /-- history: those whose write has completed -/
  completed : List Bytes
  /-- history: non-empty buffers accepted by the endpoint -/
  requests : List Bytes
  /-- history: non-empty buffers that others have put into the queue -/
  others : List Bytes

namespace Link

def create (stream : StreamPtr) : Link := ⟨.initial, .create stream, [], [], [], [], []⟩

/-- `queue_->enqueue`. -/
def push (l : Link) (data : Bytes) : Link where
  endpoint := l.endpoint
  queue := (l.queue.enqueue false data).1
  inFlight := l.inFlight ++ l.queue.enqueueWrites data
  written := l.written ++ l.queue.enqueueWrites data
  completed := l.completed
  requests := l.requests
  others := l.others

inductive Op
  | enqueue (data : Bytes)
  | onConnected (stream : StreamPtr)
  /-- `MessageQueue::enqueue` by another sender -/
  | enqueueOther (data : Bytes)
  /-- the oldest write completes -/
  | messageWritten

/-- `OutboundEndpoint::enqueue`. -/
def enqueue (l : Link) (data : Bytes) : Link :=
  if data = [] then l
  else if l.endpoint.overflows (fun _ => l.queue) data then l
  else
    let accepted := { l with requests := l.requests ++ [data] }
    match l.endpoint with
    | .connecting buffers bytes =>
      { accepted with endpoint := .connecting (buffers ++ [data]) (bytes + data.length) }
    | .connected _ => accepted.push data

def onConnected (l : Link) (stream : StreamPtr) : Link :=
  l.endpoint.waiting.foldl push { l with endpoint := .connected stream }

def enqueueOther (l : Link) (data : Bytes) : Link :=
  if data = [] ∨ l.queue.active = false then l.push data
  else { l with others := l.others ++ [data] }.push data

def messageWritten (l : Link) (data : Bytes) (rest : List Bytes) : Link where
  endpoint := l.endpoint
  queue := (l.queue.onMessageWritten false (.written data.length)).1
  inFlight := rest ++ l.queue.dequeueWrites
  written := l.written ++ l.queue.dequeueWrites
  completed := l.completed ++ [data]
  requests := l.requests
  others := l.others

def step (l : Link) : Op → Option Link
  | .enqueue data => some (l.enqueue data)
  | .onConnected stream => some (l.onConnected stream)
  | .enqueueOther data => some (l.enqueueOther data)
  | .messageWritten =>
    match l.inFlight with
    | [] => none
    | data :: rest => some (l.messageWritten data rest)

/-! ## Invariant -/

/-- The queue and the stream. -/
structure Writing (l : Link) : Prop where
  active : l.queue.active = true
  pending : l.queue.pendingBytes = sizes l.queue.pendingBuffers
  writing : l.queue.writingBytes = sizes l.inFlight
  oneWrite : l.inFlight.length ≤ 1
  idle : l.queue.writingBytes = 0 → l.queue.pendingBuffers = []
  nonempty : ∀ data ∈ l.inFlight ++ l.queue.pendingBuffers, data ≠ []
  completed : l.written = l.completed ++ l.inFlight
  total : l.queue.totalBytesWritten = sizes l.completed

/-- What has been put into the queue, in order: `true` marks the buffers of the endpoint, of which
`waiting` are still to come. -/
structure Order (l : Link) (waiting : List Bytes) (queued : List (Bool × Bytes)) : Prop where
  all : queued.map Prod.snd = l.written ++ l.queue.pendingBuffers
  requests : (queued.filter fun e => e.1).map Prod.snd ++ waiting = l.requests
  others : (queued.filter fun e => !e.1).map Prod.snd = l.others

structure Waiting (l : Link) : Prop where
  bytes : l.endpoint.waitingBytes = sizes l.endpoint.waiting
  nonempty : ∀ data ∈ l.endpoint.waiting, data ≠ []

structure Fifo (l : Link) : Prop where
  writing : Writing l
  order : ∃ queued, Order l l.endpoint.waiting queued
  waiting : Waiting l

theorem fifo_create (stream : StreamPtr) : Fifo (create stream) where
  writing := ⟨rfl, rfl, rfl, Nat.zero_le 1, fun _ => rfl, fun _ h => absurd h List.not_mem_nil, rfl, rfl⟩
  order := ⟨[], rfl, rfl, rfl⟩
  waiting := ⟨rfl, fun _ h => absurd h List.not_mem_nil⟩

/-- A buffer that is put into the queue is written at once or comes last. -/
theorem push_writing {l : Link} (h : Writing l) {data : Bytes} (hdata : data ≠ []) :
    Writing (l.push data) ∧
      (l.push data).written ++ (l.push data).queue.pendingBuffers =
        l.written ++ l.queue.pendingBuffers ++ [data] := by
  have hready : ¬(data = [] ∨ l.queue.active = false) := by
    rw [h.active]
    simpa using hdata
  by_cases hbusy : 0 < l.queue.writingBytes
  · have hstart : l.queue.enqueueWrites data = [] := by
      rw [MessageQueue.enqueueWrites, if_neg hready, if_pos hbusy]
    have hqueue : (l.queue.enqueue false data).1 =
        { l.queue with
            pendingBytes := l.queue.pendingBytes + data.length
            pendingBuffers := l.queue.pendingBuffers ++ [data] } := by
      rw [MessageQueue.enqueue, if_neg hready, if_pos hbusy]
    simp only [push, hstart, hqueue, List.append_nil]
    refine ⟨⟨h.active, ?_, h.writing, h.oneWrite, fun hzero => absurd hzero hbusy.ne', ?_, h.completed,
      h.total⟩, (List.append_assoc _ _ _).symm⟩
    · simp [h.pending]
    · intro b hb
      rw [← List.append_assoc] at hb
      rcases List.mem_append.mp hb with hb | hb
      · exact h.nonempty b hb
      · exact List.mem_singleton.mp hb ▸ hdata
  · have hidle : l.queue.writingBytes = 0 := by omega
    have hnone := h.idle hidle
    have hfree : l.inFlight = [] := by
      -- a write in flight is not empty
      match hf : l.inFlight with
      | [] => rfl
      | b :: bs =>
        have hpos := List.length_pos_of_ne_nil (h.nonempty b (by simp [hf]))
        have hsum := h.writing
        rw [hf, sizes_cons] at hsum
        omega
    have hstart : l.queue.enqueueWrites data = [data] := by
      rw [MessageQueue.enqueueWrites, if_neg hready, if_neg hbusy]
    have hqueue : (l.queue.enqueue false data).1 = { l.queue with writingBytes := data.length } := by
      rw [MessageQueue.enqueue, if_neg hready, if_neg hbusy]
      rfl
    have hpos := List.length_pos_of_ne_nil hdata
    simp only [push, hstart, hqueue, hfree, List.nil_append]
    refine ⟨⟨h.active, h.pending, ?_, le_refl 1, fun _ => hnone, ?_, ?_, h.total⟩, ?_⟩
    · simp
    · intro b hb
      rw [hnone, List.append_nil] at hb
      exact List.mem_singleton.mp hb ▸ hdata
    · rw [h.completed, hfree, List.append_nil]
    · rw [hnone, List.append_nil, List.append_nil]

theorem push_request {l : Link} {data : Bytes} {waiting : List Bytes} {queued : List (Bool × Bytes)}
    (h : Writing l) (ho : Order l (data :: waiting) queued) (hdata : data ≠ []) :
    Writing (l.push data) ∧ Order (l.push data) waiting (queued ++ [(true, data)]) := by
  obtain ⟨hw, hall⟩ := push_writing h hdata
  refine ⟨hw, ?_, ?_, ?_⟩
  · rw [hall, ← ho.all]
    simp
  · show _ = l.requests
    rw [← ho.requests]
    simp
  · show _ = l.others
    rw [← ho.others]
    simp

/-- The loop of `onConnected`. -/
theorem handOver {waiting : List Bytes} {l : Link} {queued : List (Bool × Bytes)} (h : Writing l)
    (ho : Order l waiting queued) (hne : ∀ data ∈ waiting, data ≠ []) :
    Writing (waiting.foldl push l) ∧ (∃ queued', Order (waiting.foldl push l) [] queued') ∧
      (waiting.foldl push l).endpoint = l.endpoint := by
  induction waiting generalizing l queued with
  | nil => exact ⟨h, ⟨queued, ho⟩, rfl⟩
  | cons data waiting ih =>
    obtain ⟨hw, ho'⟩ := push_request h ho (hne data List.mem_cons_self)
    exact ih hw ho' fun b hb => hne b (List.mem_cons_of_mem data hb)

theorem fifo_enqueue {l : Link} (h : Fifo l) (data : Bytes) : Fifo (l.enqueue data) := by
  obtain ⟨queued, ho⟩ := h.order
  unfold enqueue
  by_cases hdata : data = []
  · rw [if_pos hdata]
    exact h
  rw [if_neg hdata]
  by_cases hover : l.endpoint.overflows (fun _ => l.queue) data = true
  · rw [if_pos hover]
    exact h
  rw [if_neg hover]
  cases hep : l.endpoint with
  | connecting buffers bytes =>
    have hbytes := h.waiting.bytes
    have hne := h.waiting.nonempty
    rw [hep] at ho hbytes hne
    simp only [OutboundEndpoint.waiting, OutboundEndpoint.waitingBytes] at ho hbytes hne
    refine ⟨⟨h.writing.active, h.writing.pending, h.writing.writing, h.writing.oneWrite, h.writing.idle,
      h.writing.nonempty, h.writing.completed, h.writing.total⟩, ⟨queued, ho.all, ?_, ho.others⟩, ?_, ?_⟩
    · simp only [OutboundEndpoint.waiting]
      rw [← ho.requests, List.append_assoc]
    · simp [OutboundEndpoint.waiting, OutboundEndpoint.waitingBytes, hbytes]
    · intro b hb
      rcases List.mem_append.mp hb with hb | hb
      · exact hne b hb
      · exact List.mem_singleton.mp hb ▸ hdata
  | connected stream =>
    rw [hep] at ho
    have haccepted : Order { l with endpoint := .connected stream, requests := l.requests ++ [data] }
        [data] queued := by
      refine ⟨ho.all, ?_, ho.others⟩
      show _ = l.requests ++ [data]
      rw [← ho.requests]
      simp [OutboundEndpoint.waiting]
    have hwriting : Writing { l with endpoint := .connected stream, requests := l.requests ++ [data] } :=
      ⟨h.writing.active, h.writing.pending, h.writing.writing, h.writing.oneWrite, h.writing.idle,
        h.writing.nonempty, h.writing.completed, h.writing.total⟩
    obtain ⟨hw, ho'⟩ := push_request hwriting haccepted hdata
    exact ⟨hw, ⟨_, ho'⟩, rfl, fun b hb => absurd hb List.not_mem_nil⟩

theorem fifo_onConnected {l : Link} (h : Fifo l) (stream : StreamPtr) : Fifo (l.onConnected stream) := by
  obtain ⟨queued, ho⟩ := h.order
  have hconnected : Order { l with endpoint := .connected stream } l.endpoint.waiting queued :=
    ⟨ho.all, ho.requests, ho.others⟩
  have hwriting : Writing { l with endpoint := .connected stream } :=
    ⟨h.writing.active, h.writing.pending, h.writing.writing, h.writing.oneWrite, h.writing.idle,
      h.writing.nonempty, h.writing.completed, h.writing.total⟩
  obtain ⟨hw, hqueued, hep⟩ := handOver hwriting hconnected h.waiting.nonempty
  refine ⟨hw, ?_, ?_⟩
  · rw [onConnected, hep]
    exact hqueued
  · constructor
    · rw [onConnected, hep]
      rfl
    · rw [onConnected, hep]
      exact fun b hb => absurd hb List.not_mem_nil

theorem push_ignored {l : Link} {data : Bytes} (h : data = [] ∨ l.queue.active = false) :
    l.push data = l := by
  rw [push, MessageQueue.enqueue, MessageQueue.enqueueWrites, if_pos h, if_pos h, List.append_nil,
    List.append_nil]

theorem fifo_enqueueOther {l : Link} (h : Fifo l) (data : Bytes) : Fifo (l.enqueueOther data) := by
  unfold enqueueOther
  by_cases hignored : data = [] ∨ l.queue.active = false
  · rw [if_pos hignored, push_ignored hignored]
    exact h
  rw [if_neg hignored]
  obtain ⟨queued, ho⟩ := h.order
  have hwriting : Writing { l with others := l.others ++ [data] } :=
    ⟨h.writing.active, h.writing.pending, h.writing.writing, h.writing.oneWrite, h.writing.idle,
      h.writing.nonempty, h.writing.completed, h.writing.total⟩
  obtain ⟨hw, hall⟩ := push_writing hwriting (not_or.mp hignored).1
  refine ⟨hw, ⟨queued ++ [(false, data)], ?_, ?_, ?_⟩, h.waiting.bytes, h.waiting.nonempty⟩
  · rw [hall]
    show _ = l.written ++ l.queue.pendingBuffers ++ [data]
    rw [← ho.all]
    simp
  · show _ ++ l.endpoint.waiting = l.requests
    rw [← ho.requests]
    simp
  · show _ = l.others ++ [data]
    rw [← ho.others]
    simp

theorem fifo_messageWritten {l : Link} (h : Fifo l) {data : Bytes} {rest : List Bytes}
    (hflight : l.inFlight = data :: rest) : Fifo (l.messageWritten data rest) := by
  obtain ⟨queued, ho⟩ := h.order
  have hone := h.writing.oneWrite
  have hbytes := h.writing.writing
  have hcompleted := h.writing.completed
  have hne := h.writing.nonempty
  rw [hflight] at hone hbytes hcompleted hne
  obtain rfl : rest = [] := List.eq_nil_of_length_eq_zero (by simpa using hone)
  have hlen : l.queue.writingBytes = data.length := by simpa using hbytes
  have hactive : ¬l.queue.active = false := by simp [h.writing.active]
  cases hpending : l.queue.pendingBuffers with
  | nil =>
    have hqueue : (l.queue.onMessageWritten false (.written data.length)).1 =
        { l.queue with writingBytes := 0, totalBytesWritten := l.queue.totalBytesWritten + data.length } := by
      simp [MessageQueue.onMessageWritten, h.writing.active, hlen, MessageQueue.dequeue, hpending]
    have hstart : l.queue.dequeueWrites = [] := by rw [MessageQueue.dequeueWrites, hpending]; rfl
    simp only [messageWritten, hqueue, hstart, List.append_nil]
    refine ⟨⟨h.writing.active, ?_, rfl, Nat.zero_le 1, fun _ => hpending, ?_, ?_, ?_⟩,
      ⟨queued, ho.all, ho.requests, ho.others⟩, h.waiting.bytes, h.waiting.nonempty⟩
    · exact h.writing.pending
    · simp [hpending]
    · rw [List.append_nil]
      exact hcompleted
    · simp [h.writing.total]
  | cons buffer pending =>
    have hqueue : (l.queue.onMessageWritten false (.written data.length)).1 =
        { l.queue with
            writingBytes := buffer.length
            pendingBytes := l.queue.pendingBytes - buffer.length
            pendingBuffers := pending
            totalBytesWritten := l.queue.totalBytesWritten + data.length } := by
      simp [MessageQueue.onMessageWritten, h.writing.active, hlen, MessageQueue.dequeue, hpending,
        MessageQueue.beginWrite]
    have hstart : l.queue.dequeueWrites = [buffer] := by rw [MessageQueue.dequeueWrites, hpending]; rfl
    have hsum := h.writing.pending
    rw [hpending, sizes_cons] at hsum
    have hbuffer : buffer ≠ [] := hne buffer (by simp [hpending])
    have hpos := List.length_pos_of_ne_nil hbuffer
    simp only [messageWritten, hqueue, hstart, List.nil_append]
    refine ⟨⟨h.writing.active, ?_, ?_, le_refl 1, ?_, ?_, ?_, ?_⟩, ⟨queued, ?_, ho.requests, ho.others⟩,
      h.waiting.bytes, h.waiting.nonempty⟩
    · show l.queue.pendingBytes - buffer.length = sizes pending
      omega
    · simp
    · exact fun hzero => absurd hzero hpos.ne'
    · intro b hb
      apply hne
      rw [hpending]
      exact List.mem_cons_of_mem data hb
    · rw [hcompleted]
    · simp [h.writing.total]
    · rw [ho.all, hpending]
      simp

theorem fifo_step {l l' : Link} {op : Op} (h : Fifo l) (hs : l.step op = some l') : Fifo l' := by
  cases op with
  | enqueue data =>
    cases hs
    exact fifo_enqueue h data
  | onConnected stream =>
    cases hs
    exact fifo_onConnected h stream
  | enqueueOther data =>
    cases hs
    exact fifo_enqueueOther h data
  | messageWritten =>
    cases hflight : l.inFlight with
    | nil => simp [step, hflight] at hs
    | cons data rest =>
      simp only [step, hflight, Option.some.injEq] at hs
      exact hs ▸ fifo_messageWritten h hflight

/-- What the queues are for. Nothing that was accepted is lost, written twice or overtaken by a later
request: with what still waits in the two queues the written buffers are the accepted ones. -/
structure InOrder (l : Link) : Prop where
  order : ∃ queued : List (Bool × Bytes),
    queued.map Prod.snd = l.written ++ l.queue.pendingBuffers ∧
      (queued.filter fun e => e.1).map Prod.snd ++ l.endpoint.waiting = l.requests ∧
      (queued.filter fun e => !e.1).map Prod.snd = l.others
  written : l.written = l.completed ++ l.inFlight
  oneWrite : l.inFlight.length ≤ 1
  pendingBytes : l.queue.pendingBytes = sizes l.queue.pendingBuffers
  waitingBytes : l.endpoint.waitingBytes = sizes l.endpoint.waiting
  busy : l.queue.writingBytes = 0 → l.queue.pendingBuffers = []
  totalBytesWritten : l.queue.totalBytesWritten = sizes l.completed

/-- **First in, first out, and nothing lost**, in whatever order requests, other messages, the
connection and completed writes come. -/
theorem written_in_order (stream : StreamPtr) (ops : List Op) {l : Link}
    (hr : Runs.run step (create stream) ops = some l) : InOrder l := by
  have h : Fifo l := Runs.run_invariant Fifo (fun _ _ _ hc _ hs => fifo_step hc hs) (fifo_create stream)
    (Runs.everyStep_true _ _) hr
  obtain ⟨queued, ho⟩ := h.order
  exact ⟨⟨queued, ho.all, ho.requests, ho.others⟩, h.writing.completed, h.writing.oneWrite,
    h.writing.pending, h.waiting.bytes, h.writing.idle, h.writing.total⟩

/-- Two requests before the connection and one after it, among the messages of another sender. -/
def mixedSenders : List Op :=
  [.enqueueOther [1], .enqueue [2], .enqueue [], .enqueueOther [3, 4], .enqueue [5], .onConnected 0,
    .messageWritten, .enqueue [6], .messageWritten]

theorem mixed_in_order : InOrder (Runs.last step (create 0) mixedSenders) :=
  written_in_order 0 mixedSenders (Runs.run_last (by decide +kernel))

end Link
end IpfsLite.Graphsync
