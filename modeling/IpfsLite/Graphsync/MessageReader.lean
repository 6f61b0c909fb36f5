import IpfsLite.Graphsync.Endpoints

/-! # The reader of a stream

`LengthDelimitedMessageReader`, as `MessageReader` uses it: it is created for one stream, `read` is called once and
`close` when the owner goes. A read calls back later, when its bytes are there or the stream ends. The owner may
call `close` from inside the feedback. -/
namespace IpfsLite.Graphsync
set_option autoImplicit false

variable {ε : Type}

inductive ReaderError (ε : Type) where
  | streamNotReadable
  | messageSizeOutOfBounds
  | messageReadError
  /-- an error of the stream -/
  | stream (e : ε)
  deriving DecidableEq

/-- What the feedback is called with. -/
abbrev ReaderEvent (ε : Type) := Except (ReaderError ε) Bytes

/-- What a stream has yet to bring, and what a read that finds less than it asked for returns: the error, or without
one the number of bytes that were there. -/
structure Incoming (ε : Type) where
  bytes : Bytes
  atEnd : Option ε

/-- A read that has not called back. -/
inductive Outstanding where
  | varint
  | message (length : ℕ)
  deriving DecidableEq

/-- The log is what the feedback was called with. -/
structure LengthDelimitedMessageReader (ε : Type) where
  stream : Bool
  reading : Bool
  buffer : Bytes
  outstanding : List Outstanding
  wire : Incoming ε
  log : List (ReaderEvent ε)

namespace LengthDelimitedMessageReader
variable (maxMessageSize : ℕ) (owner : List (ReaderEvent ε) → Bool)

def create (wire : Incoming ε) : LengthDelimitedMessageReader ε := ⟨false, false, [], [], wire, []⟩

def close (r : LengthDelimitedMessageReader ε) : LengthDelimitedMessageReader ε :=
  if r.stream then { r with reading := false, stream := false } else r

def continueReading (r : LengthDelimitedMessageReader ε) : LengthDelimitedMessageReader ε :=
  if r.reading then r else { r with outstanding := r.outstanding ++ [.varint], reading := true }

/-- On a stream that is not closed for reading. -/
def read (r : LengthDelimitedMessageReader ε) : LengthDelimitedMessageReader ε :=
  continueReading (if r.stream then r else { r with stream := true })

/-- `owner` says whether the owner closes the reader, after all that it was told. -/
def feedback (r : LengthDelimitedMessageReader ε) (e : ReaderEvent ε) : LengthDelimitedMessageReader ε :=
  let r := { r with log := r.log ++ [e] }
  if owner r.log then r.close else r

/-- `buffer_->resize`. -/
def resize (buffer : Bytes) (length : ℕ) : Bytes := buffer.take length ++ List.replicate (length - buffer.length) 0

def onLengthRead (r : LengthDelimitedMessageReader ε) (length : ℕ) : LengthDelimitedMessageReader ε :=
  if r.reading then
    match Graphsync.onLengthRead maxMessageSize length with
    | .streamNotReadable => { r with reading := false }.feedback owner (.error .streamNotReadable)
    | .messageSizeOutOfBounds => { r with reading := false }.feedback owner (.error .messageSizeOutOfBounds)
    | .reading length =>
      { r with buffer := resize r.buffer length, outstanding := r.outstanding ++ [.message length] }
  else r

/-- The buffer is moved to the feedback. -/
def onMessageRead (r : LengthDelimitedMessageReader ε) (res : Except ε ℕ) : LengthDelimitedMessageReader ε :=
  if r.reading then
    let r := { r with reading := false }
    match res with
    | .error e => r.feedback owner (.error (.stream e))
    | .ok count =>
      if r.buffer.length ≠ count then r.feedback owner (.error .messageReadError)
      else
        let r := { r with buffer := [] }.feedback owner (.ok r.buffer)
        if r.stream then r.continueReading else r
  else r

/-- The callback of `readVarint`: an error counts as the length 0. -/
def varintRead (r : LengthDelimitedMessageReader ε) : LengthDelimitedMessageReader ε :=
  match Varint.decode r.wire.bytes with
  | some (length, rest) => { r with wire.bytes := rest }.onLengthRead maxMessageSize owner length
  | none => r.onLengthRead maxMessageSize owner 0

/-- The callback of `stream_->read`: the bytes are in the buffer by then. -/
def messageRead (r : LengthDelimitedMessageReader ε) (length : ℕ) : LengthDelimitedMessageReader ε :=
  let taken := r.wire.bytes.take length
  let res : Except ε ℕ :=
    if length ≤ r.wire.bytes.length then .ok length
    else match r.wire.atEnd with
      | some e => .error e
      | none => .ok taken.length
  { r with buffer := taken ++ r.buffer.drop taken.length, wire.bytes := r.wire.bytes.drop length }.onMessageRead owner res

/-- One call of the environment or of the owner. -/
inductive Action where
  /-- the next read calls back -/
  | callback
  | close
  deriving DecidableEq

def step (r : LengthDelimitedMessageReader ε) : Action → LengthDelimitedMessageReader ε
  | .callback =>
    match r.outstanding with
    | [] => r
    | .varint :: rest => { r with outstanding := rest }.varintRead maxMessageSize owner
    | .message length :: rest => { r with outstanding := rest }.messageRead owner length
  | .close => r.close

/-- A reader for a stream, after some calls. -/
def run (wire : Incoming ε) (actions : List Action) : LengthDelimitedMessageReader ε :=
  actions.foldl (step maxMessageSize owner) (create wire).read

/-! ## What is on the wire -/

/-- The message of a length. -/
def nextMessage (length : ℕ) (wire : Incoming ε) : Except (ReaderError ε) (Bytes × Incoming ε) :=
  if length ≤ wire.bytes.length then .ok (wire.bytes.take length, { wire with bytes := wire.bytes.drop length })
  else .error (wire.atEnd.elim .messageReadError .stream)

/-- A length and a message. -/
def nextFrame (wire : Incoming ε) : Except (ReaderError ε) (Bytes × Incoming ε) :=
  match Varint.decode wire.bytes with
  | none => .error .streamNotReadable
  | some (length, rest) =>
    match Graphsync.onLengthRead maxMessageSize length with
    | .streamNotReadable => .error .streamNotReadable
    | .messageSizeOutOfBounds => .error .messageSizeOutOfBounds
    | .reading length => nextMessage length { wire with bytes := rest }

theorem nextMessage_length {length : ℕ} {wire wire' : Incoming ε} {body : Bytes}
    (h : nextMessage length wire = .ok (body, wire')) : wire'.bytes.length ≤ wire.bytes.length := by
  unfold nextMessage at h
  split_ifs at h
  rw [← (Prod.mk.inj (Except.ok.inj h)).2, List.length_drop]
  omega

theorem nextFrame_length {wire wire' : Incoming ε} {body : Bytes}
    (h : nextFrame maxMessageSize wire = .ok (body, wire')) : wire'.bytes.length < wire.bytes.length := by
  unfold nextFrame at h
  cases hdecode : Varint.decode wire.bytes with
  | none =>
    rw [hdecode] at h
    cases h
  | some frame =>
    obtain ⟨length, rest⟩ := frame
    obtain ⟨used, hused, hbytes⟩ := Varint.decode_suffix hdecode
    have hpos : 0 < used.length := List.length_pos_iff.mpr hused
    simp only [hdecode] at h
    cases hverdict : Graphsync.onLengthRead maxMessageSize length with
    | streamNotReadable =>
      rw [hverdict] at h
      cases h
    | messageSizeOutOfBounds =>
      rw [hverdict] at h
      cases h
    | reading length =>
      rw [hverdict] at h
      have hle := nextMessage_length h
      rw [hbytes, List.length_append]
      exact Nat.lt_of_le_of_lt hle (Nat.lt_add_of_pos_left hpos)

/-- The messages on the wire, and the error that ends them. -/
def frameEvents (wire : Incoming ε) : List (ReaderEvent ε) :=
  match _h : nextFrame maxMessageSize wire with
  | .error e => [.error e]
  | .ok (body, wire') => .ok body :: frameEvents wire'
termination_by wire.bytes.length
decreasing_by exact nextFrame_length maxMessageSize _h

/-- As far as the owner listens, who was `told` something before. -/
def listenFrom : List (ReaderEvent ε) → List (ReaderEvent ε) → List (ReaderEvent ε)
  | told, [] => told
  | told, e :: events => if owner (told ++ [e]) then told ++ [e] else listenFrom (told ++ [e]) events

variable {maxMessageSize} {owner}

theorem frameEvents_error {wire : Incoming ε} {e : ReaderError ε} (h : nextFrame maxMessageSize wire = .error e) :
    frameEvents maxMessageSize wire = [.error e] := by
  rw [frameEvents]
  split
  · next e' h' => rw [Except.error.inj (h'.symm.trans h)]
  · next h' => rw [h'] at h; cases h

theorem frameEvents_ok {wire wire' : Incoming ε} {body : Bytes} (h : nextFrame maxMessageSize wire = .ok (body, wire')) :
    frameEvents maxMessageSize wire = .ok body :: frameEvents maxMessageSize wire' := by
  rw [frameEvents]
  split
  · next h' => rw [h'] at h; cases h
  · next body' wire'' h' =>
    obtain ⟨rfl, rfl⟩ := Prod.mk.inj (Except.ok.inj (h'.symm.trans h))
    rfl

theorem prefix_listenFrom (told events : List (ReaderEvent ε)) : told <+: listenFrom owner told events := by
  induction events generalizing told with
  | nil => exact List.prefix_refl told
  | cons e events ih =>
    rw [listenFrom]
    split_ifs
    · exact List.prefix_append told [e]
    · exact (List.prefix_append told [e]).trans (ih _)

/-! ## One step -/

variable {r : LengthDelimitedMessageReader ε} {total rest : List (ReaderEvent ε)}

/-- What a message makes of the events that follow it. -/
def messageEvents (maxMessageSize length : ℕ) (wire : Incoming ε) : List (ReaderEvent ε) :=
  match nextMessage length wire with
  | .error e => [.error e]
  | .ok (body, wire') => .ok body :: frameEvents maxMessageSize wire'

/-- One read is outstanding, and `rest` is what is to come. -/
structure Awaits (maxMessageSize : ℕ) (r : LengthDelimitedMessageReader ε) (op : Outstanding)
    (rest : List (ReaderEvent ε)) : Prop where
  stream : r.stream = true
  reading : r.reading = true
  outstanding : r.outstanding = [op]
  events : match op with
    | .varint => rest = frameEvents maxMessageSize r.wire
    | .message length => r.buffer.length = length ∧ rest = messageEvents maxMessageSize length r.wire

/-- Everything was told, and no read is outstanding. -/
structure Done (r : LengthDelimitedMessageReader ε) (total : List (ReaderEvent ε)) : Prop where
  reading : r.reading = false
  outstanding : r.outstanding = []
  log : r.log = total

/-- The owner closed the reader; a read may be outstanding. -/
structure Closed (r : LengthDelimitedMessageReader ε) (total : List (ReaderEvent ε)) : Prop where
  reading : r.reading = false
  stream : r.stream = false
  log : r.log <+: total

theorem feedback_eq (r : LengthDelimitedMessageReader ε) (e : ReaderEvent ε) :
    r.feedback owner e =
      if owner (r.log ++ [e]) then close { r with log := r.log ++ [e] } else { r with log := r.log ++ [e] } := rfl

/-- The last event, after which the reader does not go on. -/
theorem done_feedback {e : ReaderEvent ε} (hreading : r.reading = false) (houtstanding : r.outstanding = []) :
    (r.feedback owner e).Done (r.log ++ [e]) := by
  rw [feedback_eq]
  split_ifs
  · unfold close
    split_ifs
    · exact ⟨rfl, houtstanding, rfl⟩
    · exact ⟨hreading, houtstanding, rfl⟩
  · exact ⟨hreading, houtstanding, rfl⟩

theorem listenFrom_last (told : List (ReaderEvent ε)) (e : ReaderEvent ε) : listenFrom owner told [e] = told ++ [e] := by
  rw [listenFrom]
  split_ifs
  · rfl
  · rfl

/-- An error is the last event. -/
theorem done_error {e : ReaderError ε} (hreading : r.reading = false) (houtstanding : r.outstanding = []) :
    (r.feedback owner (.error e)).Done (listenFrom owner r.log [.error e]) := by
  rw [listenFrom_last]
  exact done_feedback hreading houtstanding

variable (owner) in
/-- A length was read: it is an error, or the message is awaited. -/
theorem callback_varint (h : r.Awaits maxMessageSize .varint rest) :
    (r.step maxMessageSize owner .callback).Done (listenFrom owner r.log rest) ∨
    ∃ length, (r.step maxMessageSize owner .callback).Awaits maxMessageSize (.message length) rest ∧
      (r.step maxMessageSize owner .callback).log = r.log := by
  obtain ⟨hstream, hreading, houtstanding, hevents⟩ := h
  simp only at hevents
  rw [step, houtstanding]
  simp only [varintRead]
  cases hdecode : Varint.decode r.wire.bytes with
  | none =>
    have hframe : nextFrame maxMessageSize r.wire = .error .streamNotReadable := by rw [nextFrame, hdecode]
    rw [hevents, frameEvents_error hframe]
    simp only [onLengthRead, hreading, if_true, Graphsync.onLengthRead]
    exact .inl (done_error rfl rfl)
  | some frame =>
    obtain ⟨length, bytes⟩ := frame
    simp only [onLengthRead, hreading, if_true]
    cases hverdict : Graphsync.onLengthRead maxMessageSize length with
    | streamNotReadable =>
      have hframe : nextFrame maxMessageSize r.wire = .error .streamNotReadable := by simp only [nextFrame, hdecode, hverdict]
      rw [hevents, frameEvents_error hframe]
      exact .inl (done_error rfl rfl)
    | messageSizeOutOfBounds =>
      have hframe : nextFrame maxMessageSize r.wire = .error .messageSizeOutOfBounds := by
        simp only [nextFrame, hdecode, hverdict]
      rw [hevents, frameEvents_error hframe]
      exact .inl (done_error rfl rfl)
    | reading length =>
      have hframe : nextFrame maxMessageSize r.wire = nextMessage length { r.wire with bytes } := by
        simp only [nextFrame, hdecode, hverdict]
      refine .inr ⟨length, ⟨hstream, rfl, rfl, ?_, ?_⟩, rfl⟩
      · simp only [resize, List.length_append, List.length_take, List.length_replicate]
        omega
      · rw [hevents, messageEvents]
        cases hmessage : nextMessage length { r.wire with bytes } with
        | error e => rw [frameEvents_error (hframe.trans hmessage)]
        | ok frame =>
          obtain ⟨body, wire'⟩ := frame
          rw [frameEvents_ok (hframe.trans hmessage)]

variable (owner) in
/-- A message was read: it is told, and the next length is awaited unless the owner closes or the stream has ended. -/
theorem callback_message {length : ℕ} (h : r.Awaits maxMessageSize (.message length) rest) :
    (r.step maxMessageSize owner .callback).Done (listenFrom owner r.log rest) ∨
    ∃ body rest', rest = .ok body :: rest' ∧
      (r.step maxMessageSize owner .callback).Awaits maxMessageSize .varint rest' ∧
      (r.step maxMessageSize owner .callback).log = r.log ++ [.ok body] ∧
      listenFrom owner (r.log ++ [.ok body]) rest' = listenFrom owner r.log rest := by
  obtain ⟨hstream, hreading, houtstanding, hbuffer, hevents⟩ := h
  rw [step, houtstanding]
  simp only [messageRead]
  by_cases hwhole : length ≤ r.wire.bytes.length
  · have hmessage : nextMessage length r.wire =
        .ok (r.wire.bytes.take length, { r.wire with bytes := r.wire.bytes.drop length }) := by
      rw [nextMessage, if_pos hwhole]
    have htaken : (r.wire.bytes.take length).length = length := List.length_take_of_le hwhole
    have hread : r.wire.bytes.take length ++ r.buffer.drop length = r.wire.bytes.take length := by
      rw [← hbuffer, List.drop_length, List.append_nil]
    rw [messageEvents, hmessage] at hevents
    simp only [onMessageRead, hreading, if_true, if_pos hwhole, htaken, hread, ne_eq, not_true, if_false]
    rw [hevents, feedback_eq, listenFrom]
    cases howner : owner (r.log ++ [.ok (r.wire.bytes.take length)]) with
    | true =>
      refine .inl ?_
      simp only [if_true, close, hstream]
      exact ⟨rfl, rfl, rfl⟩
    | false =>
      refine .inr ⟨_, _, rfl, ?_⟩
      simp only [Bool.false_eq_true, if_false, hstream, if_true, continueReading, and_self, and_true]
      exact ⟨rfl, rfl, rfl, rfl⟩
  · have hshort : ¬ (r.wire.bytes.take length ++ r.buffer.drop (r.wire.bytes.take length).length).length =
        (r.wire.bytes.take length).length := by
      simp only [List.length_append, List.length_take, List.length_drop, hbuffer]
      omega
    rw [messageEvents, nextMessage, if_neg hwhole] at hevents
    simp only [onMessageRead, hreading, if_true, if_neg hwhole]
    cases hend : r.wire.atEnd with
    | none =>
      rw [hend] at hevents
      rw [hevents]
      simp only [ne_eq, hshort, not_false_eq_true, if_true]
      exact .inl (done_error rfl rfl)
    | some e =>
      rw [hend] at hevents
      rw [hevents]
      exact .inl (done_error rfl rfl)

variable (maxMessageSize owner) in
/-- A callback that comes too late. -/
theorem callback_idle (h : r.reading = false) :
    (r.step maxMessageSize owner .callback).reading = false ∧
    (r.step maxMessageSize owner .callback).stream = r.stream ∧
    (r.step maxMessageSize owner .callback).log = r.log := by
  rw [step]
  cases houtstanding : r.outstanding with
  | nil => exact ⟨h, rfl, rfl⟩
  | cons op outstanding =>
    cases op with
    | varint =>
      simp only [varintRead]
      cases hdecode : Varint.decode r.wire.bytes with
      | none =>
        simp only [onLengthRead, h, Bool.false_eq_true, if_false]
        exact ⟨trivial, trivial, trivial⟩
      | some frame =>
        simp only [onLengthRead, h, Bool.false_eq_true, if_false]
        exact ⟨trivial, trivial, trivial⟩
    | message length =>
      simp only [messageRead, onMessageRead, h, Bool.false_eq_true, if_false]
      exact ⟨trivial, trivial, trivial⟩

theorem close_fields (r : LengthDelimitedMessageReader ε) :
    r.close.stream = false ∧ r.close.outstanding = r.outstanding ∧ r.close.log = r.log ∧
      (r.stream = true ∨ r.reading = false → r.close.reading = false) := by
  unfold close
  cases hstream : r.stream with
  | true => exact ⟨rfl, rfl, rfl, fun _ => rfl⟩
  | false =>
    rw [if_neg Bool.false_ne_true]
    exact ⟨hstream, rfl, rfl, fun h => h.resolve_left Bool.false_ne_true⟩

/-! ## Every run -/

/-- Messages and no error. -/
def Clean (log : List (ReaderEvent ε)) : Prop := ∀ e ∈ log, ∃ body, e = .ok body

/-- The states of a reader that is to tell `total`. -/
inductive Follows (maxMessageSize : ℕ) (owner : List (ReaderEvent ε) → Bool) (total : List (ReaderEvent ε))
    (r : LengthDelimitedMessageReader ε) : Prop where
  | awaits (op : Outstanding) (rest : List (ReaderEvent ε)) (h : r.Awaits maxMessageSize op rest)
      (hclean : Clean r.log) (htotal : listenFrom owner r.log rest = total)
  | done (h : r.Done total)
  | closed (h : r.Closed total) (hclean : Clean r.log)

theorem Done.step (h : r.Done total) (a : Action) : (r.step maxMessageSize owner a).Done total := by
  cases a with
  | callback =>
    rw [LengthDelimitedMessageReader.step, h.outstanding]
    exact h
  | close =>
    obtain ⟨-, houtstanding, hlog, hreading⟩ := close_fields r
    exact ⟨hreading (.inr h.reading), houtstanding.trans h.outstanding, hlog.trans h.log⟩

theorem Follows.step (h : r.Follows maxMessageSize owner total) (a : Action) :
    (r.step maxMessageSize owner a).Follows maxMessageSize owner total := by
  cases h with
  | awaits op rest h hclean htotal =>
    cases a with
    | callback =>
      cases op with
      | varint =>
        obtain hdone | ⟨length, hawaits, hlog⟩ := callback_varint owner h
        · exact .done (htotal ▸ hdone)
        · exact .awaits _ rest hawaits (hlog ▸ hclean) (hlog ▸ htotal)
      | message length =>
        obtain hdone | ⟨body, rest', -, hawaits, hlog, hlisten⟩ := callback_message owner h
        · exact .done (htotal ▸ hdone)
        · refine .awaits _ rest' hawaits ?_ ?_
          · rw [hlog]
            exact List.forall_mem_append.mpr ⟨hclean, List.forall_mem_singleton.mpr ⟨body, rfl⟩⟩
          · rw [hlog, hlisten, htotal]
    | close =>
      obtain ⟨hstream, -, hlog, hreading⟩ := close_fields r
      refine .closed ⟨hreading (.inl h.stream), hstream, ?_⟩ (hlog ▸ hclean)
      rw [LengthDelimitedMessageReader.step, hlog, ← htotal]
      exact prefix_listenFrom r.log rest
  | done h => exact .done (h.step a)
  | closed h hclean =>
    cases a with
    | callback =>
      obtain ⟨hreading, hstream, hlog⟩ := callback_idle maxMessageSize owner h.reading
      exact .closed ⟨hreading, hstream.trans h.stream, hlog ▸ h.log⟩ (hlog ▸ hclean)
    | close =>
      obtain ⟨hstream, -, hlog, hreading⟩ := close_fields r
      exact .closed ⟨hreading (.inr h.reading), hstream, hlog ▸ h.log⟩ (hlog ▸ hclean)

theorem follows_foldl (h : r.Follows maxMessageSize owner total) (actions : List Action) :
    (actions.foldl (step maxMessageSize owner) r).Follows maxMessageSize owner total := by
  induction actions generalizing r with
  | nil => exact h
  | cons a actions ih => exact ih (h.step a)

theorem awaits_create (wire : Incoming ε) :
    (create wire).read.Awaits maxMessageSize .varint (frameEvents maxMessageSize wire) := ⟨rfl, rfl, rfl, rfl⟩

variable (maxMessageSize owner) in
theorem follows_run (wire : Incoming ε) (actions : List Action) :
    (run maxMessageSize owner wire actions).Follows maxMessageSize owner
      (listenFrom owner [] (frameEvents maxMessageSize wire)) :=
  follows_foldl (.awaits _ _ (awaits_create wire) (fun _ he => (List.not_mem_nil he).elim) rfl) actions

theorem Follows.log (h : r.Follows maxMessageSize owner total) : r.log <+: total := by
  cases h with
  | awaits op rest h hclean htotal => exact htotal ▸ prefix_listenFrom r.log rest
  | done h => exact h.log ▸ List.prefix_refl _
  | closed h hclean => exact h.log

/-- An error is the last thing that is told, and no read follows it. -/
theorem Follows.outstanding (h : r.Follows maxMessageSize owner total) (herror : ¬ Clean r.log) :
    r.outstanding = [] := by
  cases h with
  | awaits op rest h hclean htotal => exact absurd hclean herror
  | done h => exact h.outstanding
  | closed h hclean => exact absurd hclean herror

theorem Follows.stopped (h : r.Follows maxMessageSize owner total) : r.stream = true ∨ r.reading = false := by
  cases h with
  | awaits op rest h hclean htotal => exact .inl h.stream
  | done h => exact .inr h.reading
  | closed h hclean => exact .inr h.reading

theorem silent (hreading : r.reading = false) (hstream : r.stream = false) (later : List Action) :
    (later.foldl (step maxMessageSize owner) r).log = r.log := by
  induction later generalizing r with
  | nil => rfl
  | cons a later ih =>
    rw [List.foldl_cons]
    cases a with
    | callback =>
      obtain ⟨hreading', hstream', hlog⟩ := callback_idle maxMessageSize owner hreading
      rw [ih hreading' (hstream'.trans hstream), hlog]
    | close =>
      obtain ⟨hstream', -, hlog, hreading'⟩ := close_fields r
      exact (ih (hreading' (.inr hreading)) hstream').trans hlog

theorem frameEvents_ne_nil (wire : Incoming ε) : frameEvents maxMessageSize wire ≠ [] := by
  cases hframe : nextFrame maxMessageSize wire with
  | error e =>
    rw [frameEvents_error hframe]
    exact List.cons_ne_nil _ _
  | ok frame =>
    obtain ⟨body, wire'⟩ := frame
    rw [frameEvents_ok hframe]
    exact List.cons_ne_nil _ _

theorem Done.callbacks (h : r.Done total) (n : ℕ) :
    ((List.replicate n Action.callback).foldl (LengthDelimitedMessageReader.step maxMessageSize owner) r).log =
      total := by
  induction n generalizing r with
  | zero => exact h.log
  | succ n ih => exact ih (h.step .callback)

/-- Two callbacks for every event are enough. -/
theorem log_of_callbacks (h : r.Awaits maxMessageSize .varint rest) {n : ℕ} (hn : 2 * rest.length ≤ n) :
    ((List.replicate n Action.callback).foldl (step maxMessageSize owner) r).log = listenFrom owner r.log rest := by
  induction rest generalizing r n with
  | nil => exact absurd h.events.symm (frameEvents_ne_nil r.wire)
  | cons e rest ih =>
    rw [List.length_cons] at hn
    obtain ⟨n, rfl⟩ : ∃ k, n = k + 2 := ⟨n - 2, by omega⟩
    rw [List.replicate_succ, List.foldl_cons]
    obtain hdone | ⟨length, hmessage, hlog⟩ := callback_varint owner h
    · exact hdone.callbacks (n + 1)
    · rw [List.replicate_succ, List.foldl_cons, ← hlog]
      obtain hdone | ⟨body, rest', heq, hawaits, hlog', hlisten⟩ := callback_message owner hmessage
      · exact hdone.callbacks n
      · obtain ⟨-, rfl⟩ := List.cons.inj heq
        rw [ih hawaits (by omega), hlog', hlisten]

theorem listenFrom_open (howner : ∀ log, owner log = false) (told events : List (ReaderEvent ε)) :
    listenFrom owner told events = told ++ events := by
  induction events generalizing told with
  | nil => exact (List.append_nil told).symm
  | cons e events ih =>
    rw [listenFrom, howner, if_neg Bool.false_ne_true, ih, List.append_assoc, List.singleton_append]

/-! ## Frames -/

/-- A body behind its length, as `serializeProtobufMessage` writes it. -/
def frame (body : Bytes) : Bytes := Varint.encode body.length ++ body

/-- A body that a reader takes. -/
abbrev MessageBody := { body : Bytes // 0 < body.length ∧ body.length ≤ kMaxMessageSize }

theorem decode_frame (body : MessageBody) (rest : Bytes) :
    Varint.decode (frame body.1 ++ rest) = some (body.1.length, body.1 ++ rest) := by
  have hsmall : body.1.length < 2 ^ 64 := Nat.lt_of_le_of_lt body.2.2 (by decide)
  rw [frame, List.append_assoc, Varint.decode_encode_append hsmall]

theorem onLengthRead_body (body : MessageBody) :
    Graphsync.onLengthRead kMaxMessageSize body.1.length = .reading body.1.length := by
  obtain ⟨hpos, hmax⟩ := body.2
  rw [Graphsync.onLengthRead, if_neg (by omega), if_neg (by omega)]

theorem frameEvents_frame (body : MessageBody) (rest : Bytes) (atEnd : Option ε) :
    frameEvents kMaxMessageSize ⟨frame body.1 ++ rest, atEnd⟩ =
      .ok body.1 :: frameEvents kMaxMessageSize ⟨rest, atEnd⟩ := by
  refine frameEvents_ok ?_
  simp only [nextFrame, decode_frame, onLengthRead_body, nextMessage]
  rw [if_pos (by rw [List.length_append]; omega), List.take_left, List.drop_left]

theorem frameEvents_frames (bodies : List MessageBody) (rest : Bytes) (atEnd : Option ε) :
    frameEvents kMaxMessageSize ⟨(bodies.flatMap fun body => frame body.1) ++ rest, atEnd⟩ =
      (bodies.map fun body => .ok body.1) ++ frameEvents kMaxMessageSize ⟨rest, atEnd⟩ := by
  induction bodies with
  | nil => rfl
  | cons body bodies ih => rw [List.flatMap_cons, List.append_assoc, frameEvents_frame, ih, List.map_cons, List.cons_append]

variable (maxMessageSize) in
/-- The messages end with one error. -/
theorem frameEvents_last (wire : Incoming ε) :
    ∃ messages e, frameEvents maxMessageSize wire = messages ++ [.error e] ∧ Clean messages := by
  induction wire using frameEvents.induct maxMessageSize with
  | case1 wire e hframe => exact ⟨[], e, frameEvents_error hframe, fun _ he => (List.not_mem_nil he).elim⟩
  | case2 wire body wire' hframe ih =>
    obtain ⟨messages, e, hmessages, hclean⟩ := ih
    refine ⟨.ok body :: messages, e, ?_, List.forall_mem_cons.mpr ⟨⟨body, rfl⟩, hclean⟩⟩
    rw [frameEvents_ok hframe, hmessages, List.cons_append]

/-- **The reader delivers the frames of its stream**, each body once and in order, as far as its owner listens; what
follows the frames ends with one error, after which nothing is read, and after `close` nothing is told. -/
theorem reader_delivers (owner : List (ReaderEvent ε) → Bool) (bodies : List MessageBody) (rest : Bytes)
    (atEnd : Option ε) :
    let wire : Incoming ε := ⟨(bodies.flatMap fun body => frame body.1) ++ rest, atEnd⟩
    ∃ messages e, Clean messages ∧
      let events : List (ReaderEvent ε) := (bodies.map fun body => .ok body.1) ++ messages ++ [.error e]
      let heard := listenFrom owner [] events
      (∀ actions, (run kMaxMessageSize owner wire actions).log <+: heard) ∧
      (∀ n, 2 * events.length ≤ n → (run kMaxMessageSize owner wire (List.replicate n .callback)).log = heard) ∧
      (∀ actions, ¬ Clean (run kMaxMessageSize owner wire actions).log →
        (run kMaxMessageSize owner wire actions).outstanding = []) ∧
      (∀ actions later, (run kMaxMessageSize owner wire (actions ++ .close :: later)).log =
        (run kMaxMessageSize owner wire actions).log) ∧
      ((∀ log, owner log = false) → heard = events) := by
  intro wire
  obtain ⟨messages, e, hmessages, hclean⟩ := frameEvents_last kMaxMessageSize (⟨rest, atEnd⟩ : Incoming ε)
  have hevents : frameEvents kMaxMessageSize wire =
      (bodies.map fun body => .ok body.1) ++ messages ++ [.error e] := by
    rw [frameEvents_frames, hmessages, List.append_assoc]
  refine ⟨messages, e, hclean, ?_⟩
  rw [← hevents]
  refine ⟨fun actions => (follows_run kMaxMessageSize owner wire actions).log, fun n hn => ?_,
    fun actions => (follows_run kMaxMessageSize owner wire actions).outstanding, fun actions later => ?_,
    fun howner => ?_⟩
  · exact log_of_callbacks (awaits_create wire) hn
  · have hfollows := follows_run kMaxMessageSize owner wire actions
    obtain ⟨hstream, -, hlog, hreading⟩ := close_fields (run kMaxMessageSize owner wire actions)
    rw [run, List.foldl_append, List.foldl_cons]
    exact (silent (hreading hfollows.stopped) hstream later).trans hlog
  · exact listenFrom_open howner [] _

end LengthDelimitedMessageReader

end IpfsLite.Graphsync
