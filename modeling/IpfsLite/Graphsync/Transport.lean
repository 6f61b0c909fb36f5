import IpfsLite.Graphsync.MessageReader
import IpfsLite.Graphsync.WireRoundTrip
import IpfsLite.Graphsync.WriteQueue

/-! # From one node to the other

A stream with the queues of the sender at one end and the reader of the receiver at the other. The two endpoints of
the sender share the queue, its writes complete one by one, and the reads of the receiver call back when what they
asked for has been written. What is read is parsed and handed to the context of the peer. -/
namespace IpfsLite.Graphsync
set_option autoImplicit false

open LengthDelimitedMessageReader (MessageBody frame)

variable {ε : Type} {H : Hasher}

/-! ## Messages -/

/-- A message that is not empty and that a reader takes. -/
structure Parcel (H : Hasher) where
  entries : List Added
  ok : ∀ entry ∈ entries, entry.Ok H
  nonempty : entries ≠ []
  small : (entries.foldl MessageBuilder.add .initial).getSerializedSize ≤ kMaxMessageSize

namespace Parcel

def builder (p : Parcel H) : MessageBuilder := p.entries.foldl MessageBuilder.add .initial

theorem entries_counted (entries : List Added) :
    (entries.filterMap Added.pbRequest).length + (entries.filterMap Added.pbResponse).length +
      (entries.filterMap Added.pbBlock).length = entries.length := by
  induction entries with
  | nil => rfl
  | cons entry entries ih =>
    cases entry with
    | request | cancel | response | block =>
      simp only [List.filterMap_cons, Added.pbRequest, Added.pbResponse, Added.pbBlock, List.length_cons]
      omega

theorem builder_pbMsg (p : Parcel H) :
    p.builder.pbMsg = ⟨false, p.entries.filterMap Added.pbRequest, p.entries.filterMap Added.pbResponse,
      p.entries.filterMap Added.pbBlock⟩ := by
  rw [builder, foldl_add_pbMsg p.ok]
  rfl

theorem body_pos (p : Parcel H) : 0 < p.builder.pbMsg.body.length := by
  refine Nat.lt_of_lt_of_le ?_ (Wire.length_le_encodeFields _)
  have hcounted := entries_counted p.entries
  have hpos : 0 < p.entries.length := List.length_pos_iff.mpr p.nonempty
  rw [builder_pbMsg]
  simp only [Pb.Message.toFields, List.length_append, List.length_map]
  omega

def body (p : Parcel H) : MessageBody := ⟨p.builder.pbMsg.body, p.body_pos, p.small⟩

def buffer (p : Parcel H) : Bytes := frame p.body.1

theorem serialize_builder (p : Parcel H) : p.builder.serialize = some p.buffer :=
  if_pos (Nat.lt_of_le_of_lt p.small (by decide))

theorem buffer_ne_nil (p : Parcel H) : p.buffer ≠ [] := MessageBuilder.serialize_ne_nil p.serialize_builder

/-- What the receiver is to get. -/
def message (p : Parcel H) : Message :=
  ⟨false, p.entries.filterMap Added.sentRequest, p.entries.filterMap Added.sentResponse,
    p.entries.filterMap Added.sentBlock⟩

theorem parseMessage_body (p : Parcel H) : parseMessage H p.body.1 = .ok p.message := by
  have hrequests := mapM_filterMap p.ok (fun entry => by cases entry <;> rfl) fun entry hok src => parse_request hok
  have hresponses := mapM_filterMap p.ok (fun entry => by cases entry <;> rfl) fun entry hok src => parse_response hok
  have hdata := mapM_filterMap p.ok (fun entry => by cases entry <;> rfl) fun entry hok src => parse_block hok
  have hparse : Pb.Message.parse p.body.1 = some p.builder.pbMsg :=
    Pb.Message.parse_body (pbMsg_ok p.ok) (Nat.lt_of_le_of_lt p.small (by decide))
  rw [parseMessage, hparse]
  simp only [parsePbMessage, builder_pbMsg, hrequests, hresponses, hdata]
  rfl

end Parcel

/-! ## `MessageReader` -/

/-- What `onReaderEvent` of the context is called with: `none` is an error. -/
def MessageReader.onMessageRead (H : Hasher) (res : ReaderEvent ε) : Option Message :=
  match res with
  | .error _ => none
  | .ok body => (parseMessage H body).toOption

/-! ## The stream -/

structure Transport (ε : Type) where
  link : Link
  reader : LengthDelimitedMessageReader ε

/-- The outstanding read has all that it asked for. -/
def LengthDelimitedMessageReader.ready (r : LengthDelimitedMessageReader ε) : Bool :=
  match r.outstanding with
  | [] => false
  | .varint :: _ => (Varint.decode r.wire.bytes).isSome
  | .message length :: _ => length ≤ r.wire.bytes.length

namespace Transport

inductive Op (H : Hasher) where
  /-- `OutboundEndpoint::enqueue` -/
  | request (p : Parcel H)
  /-- `OutboundEndpoint::onConnected` -/
  | connected (stream : StreamPtr)
  /-- `queue_->enqueue` of an `InboundEndpoint` -/
  | response (p : Parcel H)
  /-- the oldest write completes -/
  | written
  /-- the outstanding read calls back -/
  | read
  /-- the receiver drops its reader -/
  | close

variable (owner : List (ReaderEvent ε) → Bool)

def create (stream : StreamPtr) (atEnd : Option ε) : Transport ε :=
  ⟨.create stream, (LengthDelimitedMessageReader.create ⟨[], atEnd⟩).read⟩

/-- The buffers that `link` has written beside those of `t` are on their way. -/
def send (t : Transport ε) (link : Link) : Transport ε where
  link := link
  reader := { t.reader with wire.bytes := t.reader.wire.bytes ++ (link.written.drop t.link.written.length).flatten }

/-- What is not possible does nothing. -/
def step (t : Transport ε) : Op H → Transport ε
  | .request p => t.send (t.link.enqueue p.buffer)
  | .connected stream => t.send (t.link.onConnected stream)
  | .response p => t.send (t.link.enqueueOther p.buffer)
  | .written =>
    match t.link.inFlight with
    | [] => t
    | data :: rest => t.send (t.link.messageWritten data rest)
  | .read => if t.reader.ready then { t with reader := t.reader.step kMaxMessageSize owner .callback } else t
  | .close => { t with reader := t.reader.close }

def run (t : Transport ε) (ops : List (Op H)) : Transport ε := ops.foldl (step owner) t

/-- What the context of the peer is told, in order. -/
def told (H : Hasher) (t : Transport ε) : List (Option Message) := t.reader.log.map (MessageReader.onMessageRead H)

end Transport

/-! ## What the sender writes -/

namespace Link

/-- Nothing that was written is taken back, and all that is put in has the property `P`. -/
structure Extends (P : Bytes → Prop) (l l' : Link) : Prop where
  written : l.written <+: l'.written
  buffers : (∀ b ∈ l.requests ++ l.others, P b) → ∀ b ∈ l'.requests ++ l'.others, P b

section
variable {P : Bytes → Prop} {l l' l'' : Link} {data : Bytes}

theorem Extends.refl (l : Link) : l.Extends P l := ⟨List.prefix_refl _, fun h => h⟩

theorem Extends.trans (h : l.Extends P l') (h' : l'.Extends P l'') : l.Extends P l'' :=
  ⟨h.written.trans h'.written, fun hl => h'.buffers (h.buffers hl)⟩

theorem extends_push (l : Link) (data : Bytes) : l.Extends P (l.push data) :=
  ⟨List.prefix_append _ _, fun h => h⟩

theorem extends_handOver (waiting : List Bytes) (l : Link) : l.Extends P (waiting.foldl push l) := by
  induction waiting generalizing l with
  | nil => exact .refl l
  | cons data waiting ih => exact (extends_push l data).trans (ih (l.push data))

theorem extends_onConnected (l : Link) (stream : StreamPtr) : l.Extends P (l.onConnected stream) := by
  have hstart : l.Extends P { l with endpoint := .connected stream } := ⟨List.prefix_refl _, fun h => h⟩
  exact hstart.trans (extends_handOver _ _)

theorem extends_enqueue (hdata : P data) : l.Extends P (l.enqueue data) := by
  have haccepted : ∀ endpoint, l.Extends P { l with endpoint := endpoint, requests := l.requests ++ [data] } := by
    refine fun endpoint => ⟨List.prefix_refl _, fun h b hb => ?_⟩
    obtain hb | hb := List.mem_append.mp hb
    · obtain hb | hb := List.mem_append.mp hb
      · exact h b (List.mem_append_left _ hb)
      · exact List.mem_singleton.mp hb ▸ hdata
    · exact h b (List.mem_append_right _ hb)
  unfold enqueue
  split_ifs
  · exact .refl l
  · exact .refl l
  · cases l.endpoint with
    | connecting buffers bytes => exact haccepted _
    | connected stream => exact (haccepted _).trans (extends_push _ data)

theorem extends_enqueueOther (hdata : P data) : l.Extends P (l.enqueueOther data) := by
  have haccepted : l.Extends P { l with others := l.others ++ [data] } := by
    refine ⟨List.prefix_refl _, fun h b hb => ?_⟩
    obtain hb | hb := List.mem_append.mp hb
    · exact h b (List.mem_append_left _ hb)
    · obtain hb | hb := List.mem_append.mp hb
      · exact h b (List.mem_append_right _ hb)
      · exact List.mem_singleton.mp hb ▸ hdata
  unfold enqueueOther
  split_ifs
  · exact extends_push l data
  · exact haccepted.trans (extends_push _ data)

theorem extends_messageWritten (data : Bytes) (rest : List Bytes) : l.Extends P (l.messageWritten data rest) :=
  ⟨List.prefix_append _ _, fun h => h⟩

/-- What is in the queue was accepted from one of the two senders. -/
theorem Order.mem {waiting : List Bytes} {queued : List (Bool × Bytes)} (h : Order l waiting queued)
    {e : Bool × Bytes} (he : e ∈ queued) : e.2 ∈ l.requests ++ l.others := by
  obtain ⟨isRequest, data⟩ := e
  cases isRequest with
  | true =>
    refine List.mem_append_left _ (h.requests ▸ List.mem_append_left _ ?_)
    exact List.mem_map_of_mem (List.mem_filter.mpr ⟨he, rfl⟩)
  | false =>
    refine List.mem_append_right _ (h.others ▸ ?_)
    exact List.mem_map_of_mem (List.mem_filter.mpr ⟨he, rfl⟩)

end
end Link

/-! ## What the receiver reads -/

namespace LengthDelimitedMessageReader

/-- The states of a reader that was sent `bodies`. -/
inductive Receives (r : LengthDelimitedMessageReader ε) (bodies : List MessageBody) : Prop where
  | varint (told left : List MessageBody) (sent : bodies = told ++ left)
      (log : r.log = told.map fun body => .ok body.1) (bytes : r.wire.bytes = left.flatMap fun body => frame body.1)
      (stream : r.stream = true) (reading : r.reading = true) (outstanding : r.outstanding = [.varint])
  | message (told : List MessageBody) (body : MessageBody) (left : List MessageBody)
      (sent : bodies = told ++ body :: left) (log : r.log = told.map fun body => .ok body.1)
      (bytes : r.wire.bytes = body.1 ++ left.flatMap fun body => frame body.1)
      (stream : r.stream = true) (reading : r.reading = true)
      (outstanding : r.outstanding = [.message body.1.length]) (buffer : r.buffer.length = body.1.length)
  | closed (told left : List MessageBody) (sent : bodies = told ++ left)
      (log : r.log = told.map fun body => .ok body.1) (stream : r.stream = false) (reading : r.reading = false)

section
variable {r : LengthDelimitedMessageReader ε} {bodies : List MessageBody} {owner : List (ReaderEvent ε) → Bool}

theorem Receives.send (h : r.Receives bodies) (more : List MessageBody) :
    { r with wire.bytes := r.wire.bytes ++ more.flatMap fun body : MessageBody => frame body.1 }.Receives
      (bodies ++ more) := by
  cases h with
  | varint told left sent log bytes stream reading outstanding =>
    refine .varint told (left ++ more) ?_ log ?_ stream reading outstanding
    · rw [sent, List.append_assoc]
    · rw [List.flatMap_append, bytes]
  | message told body left sent log bytes stream reading outstanding buffer =>
    refine .message told body (left ++ more) ?_ log ?_ stream reading outstanding buffer
    · rw [sent, List.append_assoc, List.cons_append]
    · rw [List.flatMap_append, bytes, List.append_assoc]
  | closed told left sent log stream reading =>
    refine .closed told (left ++ more) ?_ log stream reading
    rw [sent, List.append_assoc]

theorem Receives.close (h : r.Receives bodies) : r.close.Receives bodies := by
  obtain ⟨hstream, -, hlog, hreading⟩ := close_fields r
  cases h with
  | varint told left sent log bytes stream => exact .closed told left sent (hlog.trans log) hstream (hreading (.inl stream))
  | message told body left sent log bytes stream =>
    exact .closed told (body :: left) sent (hlog.trans log) hstream (hreading (.inl stream))
  | closed told left sent log stream reading =>
    exact .closed told left sent (hlog.trans log) hstream (hreading (.inr reading))

/-- A length was read. -/
theorem receives_length {told left : List MessageBody} {body : MessageBody} (sent : bodies = told ++ body :: left)
    (log : r.log = told.map fun body => .ok body.1)
    (bytes : r.wire.bytes = (body :: left).flatMap fun body => frame body.1) (stream : r.stream = true)
    (reading : r.reading = true) (outstanding : r.outstanding = [.varint]) :
    (r.step kMaxMessageSize owner .callback).Receives bodies := by
  rw [List.flatMap_cons] at bytes
  rw [step, outstanding]
  simp only [varintRead, bytes, decode_frame, onLengthRead, reading, if_true, onLengthRead_body, List.nil_append]
  refine .message told body left sent log rfl stream rfl rfl ?_
  simp only [resize, List.length_append, List.length_take, List.length_replicate]
  omega

/-- A message was read. -/
theorem receives_message {told left : List MessageBody} {body : MessageBody} (sent : bodies = told ++ body :: left)
    (log : r.log = told.map fun body => .ok body.1)
    (bytes : r.wire.bytes = body.1 ++ left.flatMap fun body => frame body.1) (stream : r.stream = true)
    (reading : r.reading = true) (outstanding : r.outstanding = [.message body.1.length])
    (buffer : r.buffer.length = body.1.length) :
    (r.step kMaxMessageSize owner .callback).Receives bodies := by
  have hsent : bodies = (told ++ [body]) ++ left := by rw [sent, List.append_assoc, List.singleton_append]
  have hwhole : body.1.length ≤ r.wire.bytes.length := by
    rw [bytes, List.length_append]
    omega
  have htaken : r.wire.bytes.take body.1.length = body.1 := by rw [bytes, List.take_left]
  have hleft : r.wire.bytes.drop body.1.length = left.flatMap fun body => frame body.1 := by rw [bytes, List.drop_left]
  have hread : body.1 ++ r.buffer.drop body.1.length = body.1 := by rw [← buffer, List.drop_length, List.append_nil]
  have hlog : r.log ++ [.ok body.1] = (told ++ [body]).map fun body => (.ok body.1 : ReaderEvent ε) := by
    rw [log, List.map_append]
    rfl
  rw [step, outstanding]
  simp only [messageRead, if_pos hwhole, htaken, hleft, hread, onMessageRead, reading, if_true, ne_eq, not_true,
    if_false, feedback_eq]
  cases owner (r.log ++ [.ok body.1]) with
  | true =>
    simp only [if_true, LengthDelimitedMessageReader.close, stream]
    exact .closed (told ++ [body]) left hsent hlog rfl rfl
  | false =>
    simp only [Bool.false_eq_true, if_false, stream, if_true, continueReading, List.nil_append]
    exact .varint (told ++ [body]) left hsent hlog rfl rfl rfl rfl

theorem Receives.callback (h : r.Receives bodies) (hready : r.ready = true) :
    (r.step kMaxMessageSize owner .callback).Receives bodies := by
  cases h with
  | varint told left sent log bytes stream reading outstanding =>
    cases left with
    | nil =>
      rw [ready, outstanding, bytes] at hready
      cases hready
    | cons body left => exact receives_length sent log bytes stream reading outstanding
  | message told body left sent log bytes stream reading outstanding buffer =>
    exact receives_message sent log bytes stream reading outstanding buffer
  | closed told left sent log stream reading =>
    obtain ⟨hreading, hstream, hlog⟩ := callback_idle kMaxMessageSize owner reading
    exact .closed told left sent (hlog.trans log) (hstream.trans stream) hreading

theorem Receives.log_prefix (h : r.Receives bodies) :
    r.log <+: bodies.map fun body => (.ok body.1 : ReaderEvent ε) := by
  cases h with
  | varint told left sent log => exact log ▸ sent ▸ (List.prefix_append told left).map _
  | message told body left sent log => exact log ▸ sent ▸ (List.prefix_append told (body :: left)).map _
  | closed told left sent log => exact log ▸ sent ▸ (List.prefix_append told left).map _

/-- A reader that is not closed and whose read cannot call back was told everything. -/
theorem Receives.log_of_idle (h : r.Receives bodies) (hstream : r.stream = true) (hidle : r.ready = false) :
    r.log = bodies.map fun body => .ok body.1 := by
  cases h with
  | varint told left sent log bytes stream reading outstanding =>
    cases left with
    | nil => rw [log, sent, List.append_nil]
    | cons body left =>
      rw [ready, outstanding, bytes, List.flatMap_cons] at hidle
      simp only [decode_frame] at hidle
      cases hidle
  | message told body left sent log bytes stream reading outstanding =>
    rw [ready, outstanding, bytes] at hidle
    simp at hidle
  | closed told left sent log stream =>
    rw [stream] at hstream
    cases hstream

end
end LengthDelimitedMessageReader

/-! ## Every run -/

namespace Transport
variable {t : Transport ε} {owner : List (ReaderEvent ε) → Bool}

def IsParcel (H : Hasher) (b : Bytes) : Prop := ∃ p : Parcel H, p.buffer = b

theorem exists_parcels {buffers : List Bytes} (h : ∀ b ∈ buffers, IsParcel H b) :
    ∃ parcels : List (Parcel H), parcels.map Parcel.buffer = buffers := by
  have hrange : buffers ∈ Set.range (List.map (Parcel.buffer (H := H))) := by
    rw [Set.range_list_map]
    exact h
  exact hrange

structure Inv (H : Hasher) (t : Transport ε) : Prop where
  fifo : Link.Fifo t.link
  buffers : ∀ b ∈ t.link.requests ++ t.link.others, IsParcel H b
  reader : ∃ parcels : List (Parcel H), t.link.written = parcels.map Parcel.buffer ∧
    t.reader.Receives (parcels.map Parcel.body)

theorem inv_create (stream : StreamPtr) (atEnd : Option ε) : Inv H (create stream atEnd) where
  fifo := Link.fifo_create stream
  buffers _ hb := absurd hb List.not_mem_nil
  reader := ⟨[], rfl, .varint [] [] rfl rfl rfl rfl rfl rfl⟩

theorem flatten_buffers (parcels : List (Parcel H)) :
    (parcels.map Parcel.buffer).flatten = (parcels.map Parcel.body).flatMap fun body => frame body.1 := by
  rw [List.flatMap_map]
  rfl

theorem Inv.send (h : Inv H t) {link : Link} (hfifo : Link.Fifo link) (hextends : t.link.Extends (IsParcel H) link) :
    Inv H (t.send link) := by
  have hbuffers := hextends.buffers h.buffers
  obtain ⟨new, hnew⟩ := hextends.written
  obtain ⟨queued, hqueued⟩ := hfifo.order
  have hparcels : ∀ b ∈ new, IsParcel H b := by
    intro b hb
    have hmem : b ∈ queued.map Prod.snd := by
      rw [hqueued.all, ← hnew]
      exact List.mem_append_left _ (List.mem_append_right _ hb)
    obtain ⟨e, he, rfl⟩ := List.mem_map.mp hmem
    exact hbuffers e.2 (hqueued.mem he)
  obtain ⟨more, rfl⟩ := exists_parcels hparcels
  obtain ⟨parcels, hwritten, hreader⟩ := h.reader
  refine ⟨hfifo, hbuffers, parcels ++ more, ?_, ?_⟩
  · rw [List.map_append, ← hwritten]
    exact hnew.symm
  · have hdrop : link.written.drop t.link.written.length = more.map Parcel.buffer := by rw [← hnew, List.drop_left]
    rw [List.map_append, Transport.send, hdrop, flatten_buffers]
    exact hreader.send _

theorem Inv.step (h : Inv H t) (op : Op H) : Inv H (t.step owner op) := by
  cases op with
  | request p => exact h.send (Link.fifo_enqueue h.fifo _) (Link.extends_enqueue ⟨p, rfl⟩)
  | connected stream => exact h.send (Link.fifo_onConnected h.fifo stream) (Link.extends_onConnected _ stream)
  | response p => exact h.send (Link.fifo_enqueueOther h.fifo _) (Link.extends_enqueueOther ⟨p, rfl⟩)
  | written =>
    rw [Transport.step]
    cases hflight : t.link.inFlight with
    | nil => exact h
    | cons data rest => exact h.send (Link.fifo_messageWritten h.fifo hflight) (Link.extends_messageWritten data rest)
  | read =>
    rw [Transport.step]
    by_cases hready : t.reader.ready = true
    · obtain ⟨parcels, hwritten, hreader⟩ := h.reader
      rw [if_pos hready]
      exact ⟨h.fifo, h.buffers, parcels, hwritten, hreader.callback hready⟩
    · rw [if_neg hready]
      exact h
  | close =>
    obtain ⟨parcels, hwritten, hreader⟩ := h.reader
    exact ⟨h.fifo, h.buffers, parcels, hwritten, hreader.close⟩

theorem inv_run (h : Inv H t) (ops : List (Op H)) : Inv H (run owner t ops) := by
  induction ops generalizing t with
  | nil => exact h
  | cons op ops ih => exact ih (h.step op)

/-- The message in a buffer. -/
def opened (H : Hasher) (buffer : Bytes) : Option Message :=
  (Varint.decode buffer).bind fun read => (parseMessage H read.2).toOption

theorem opened_buffer (p : Parcel H) : opened H p.buffer = some p.message := by
  have hdecode := LengthDelimitedMessageReader.decode_frame p.body []
  rw [List.append_nil, List.append_nil] at hdecode
  rw [opened, Parcel.buffer, hdecode, Option.bind_some, p.parseMessage_body]
  rfl

variable (ε) in
theorem onMessageRead_body (p : Parcel H) :
    MessageReader.onMessageRead H (.ok p.body.1 : ReaderEvent ε) = opened H p.buffer := by
  rw [opened_buffer, MessageReader.onMessageRead]
  simp only [p.parseMessage_body]
  rfl

theorem map_onMessageRead (parcels : List (Parcel H)) :
    ((parcels.map Parcel.body).map fun body => (.ok body.1 : ReaderEvent ε)).map (MessageReader.onMessageRead H) =
      (parcels.map Parcel.buffer).map (opened H) := by
  rw [List.map_map, List.map_map, List.map_map]
  exact List.map_congr_left fun p _ => onMessageRead_body ε p

/-- When no write is in flight nothing is left to write. -/
theorem pending_of_idle {l : Link} (h : l.Writing) (hidle : l.inFlight = []) : l.queue.pendingBuffers = [] := by
  refine h.idle ?_
  rw [h.writing, hidle]
  rfl

/-- **Messages arrive in order**, each once and as it was built, whatever the two senders, the connection, the writes
and the reads do in between: the peer is told a prefix of what was put into the queue, and all of it once no write and
no read can go on. -/
theorem messages_arrive (owner : List (ReaderEvent ε) → Bool) (stream : StreamPtr) (atEnd : Option ε)
    (ops : List (Op H)) :
    let t := run owner (create stream atEnd) ops
    ∃ sent : List (Bool × Parcel H),
      (sent.map fun s => s.2.buffer) = t.link.written ++ t.link.queue.pendingBuffers ∧
      ((sent.filter fun s => s.1).map fun s => s.2.buffer) ++ t.link.endpoint.waiting = t.link.requests ∧
      ((sent.filter fun s => !s.1).map fun s => s.2.buffer) = t.link.others ∧
      t.told H <+: (sent.map fun s => some s.2.message) ∧
      (t.reader.stream = true → t.link.inFlight = [] → t.reader.ready = false →
        t.told H = sent.map fun s => some s.2.message) := by
  intro t
  obtain ⟨hfifo, hbuffers, parcels, hwritten, hreader⟩ : Inv H t := inv_run (inv_create stream atEnd) ops
  obtain ⟨queued, hqueued⟩ := hfifo.order
  have hrange : queued ∈ Set.range (List.map fun s : Bool × Parcel H => (s.1, s.2.buffer)) := by
    rw [Set.range_list_map]
    rintro ⟨isRequest, data⟩ he
    obtain ⟨p, hp⟩ := hbuffers data (hqueued.mem he)
    exact ⟨(isRequest, p), Prod.ext rfl hp⟩
  obtain ⟨sent, rfl⟩ := hrange
  have hall : (sent.map fun s => s.2.buffer) = t.link.written ++ t.link.queue.pendingBuffers := by
    rw [← hqueued.all, List.map_map]
    rfl
  have hmessages : (sent.map fun s => some s.2.message) =
      (t.link.written ++ t.link.queue.pendingBuffers).map (opened H) := by
    rw [← hall, List.map_map]
    exact List.map_congr_left fun s _ => (opened_buffer s.2).symm
  refine ⟨sent, hall, ?_, ?_, ?_, fun hstream hflight hready => ?_⟩
  · rw [← hqueued.requests, List.filter_map, List.map_map]
    rfl
  · rw [← hqueued.others, List.filter_map, List.map_map]
    rfl
  · rw [hmessages, hwritten, List.map_append, ← map_onMessageRead, told]
    exact (hreader.log_prefix.map _).trans (List.prefix_append _ _)
  · rw [hmessages, pending_of_idle hfifo.writing hflight, List.append_nil, hwritten, told,
      hreader.log_of_idle hstream hready, map_onMessageRead]

end Transport
end IpfsLite.Graphsync
