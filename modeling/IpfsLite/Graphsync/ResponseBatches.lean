import IpfsLite.Foundations.Batches
import IpfsLite.Graphsync.Transport

/-! # The messages of an `InboundEndpoint`

The endpoint of a stream collects blocks in one builder, whichever request they are added for. A response, be it the
last of its request or the partial one that makes room, ends the message. -/
namespace IpfsLite.Graphsync
set_option autoImplicit false

open Batches

variable {H : Hasher}

def Added.isResponse : Added → Bool
  | .response _ _ _ => true
  | _ => false

def Added.isBlock : Added → Bool
  | .block _ _ => true
  | _ => false

/-- A builder that was given these entries. -/
def MessageBuilder.built (entries : List Added) : MessageBuilder := entries.foldl MessageBuilder.add .initial

theorem MessageBuilder.built_concat (entries : List Added) (entry : Added) :
    built (entries ++ [entry]) = (built entries).add entry := by
  rw [built, List.foldl_append]
  rfl

namespace InboundEndpoint

/-- What a call puts into the builder, in order. -/
def noted (e : InboundEndpoint) : Op → List Added
  | .addBlockToResponse closed id cid data =>
    if e.overflows data then []
    else if e.needsSplit data then
      match (e.sendPartialResponse closed id).2 with
      | .ok () => [.response id .partialContent [], .block cid data]
      | .error _ => [.response id .partialContent []]
    else [.block cid data]
  | .sendResponse _ id status extensions => [.response id status extensions]
  | .request _ _ | .messageWritten _ _ => []

/-- An endpoint with what it was given, and whether a call has returned an error. -/
structure Account where
  endpoint : InboundEndpoint
  entries : List Added
  failed : Bool

namespace Account

def create (stream : StreamPtr) : Account := ⟨.create stream, [], false⟩

def step (a : Account) (op : Op) : Account where
  endpoint := (a.endpoint.apply op).1
  entries := a.entries ++ a.endpoint.noted op
  failed := a.failed || (a.endpoint.apply op).2.toOption.isNone

def run (stream : StreamPtr) (ops : List Op) : Account := ops.foldl step (create stream)

/-- The messages of the endpoint, and what it has collected for the next. -/
def messages (a : Account) : Batched Added := batched Added.isResponse a.entries

end Account

/-! ## One step -/

section
variable {e : InboundEndpoint} {entries : List Added} {failed : Bool}

/-- A flush empties the builder. It puts the message into the queue, or returns an error and the message is lost. -/
theorem flush_cases (closed : Bool) (e : InboundEndpoint) (builder : MessageBuilder) :
    (e.flush closed builder).1.responseBuilder = .initial ∧
      ((e.flush closed builder).2 = .ok () ∧
          (∃ buffer, builder.serialize = some buffer ∧ (e.flush closed builder).1.enqueued = e.enqueued ++ [buffer]) ∨
        (∃ err, (e.flush closed builder).2 = .error err) ∧ (e.flush closed builder).1.enqueued = e.enqueued) := by
  unfold flush
  cases hserialize : builder.serialize with
  | none => exact ⟨rfl, .inr ⟨⟨_, rfl⟩, rfl⟩⟩
  | some buffer =>
    simp only
    split_ifs
    · exact ⟨rfl, .inr ⟨⟨_, rfl⟩, rfl⟩⟩
    · exact ⟨rfl, .inl ⟨rfl, buffer, rfl, rfl⟩⟩

/-- What the endpoint holds and has sent. -/
structure Account.Sound (a : Account) : Prop where
  builder : a.endpoint.responseBuilder = .built a.messages.pending
  sent : (a.endpoint.enqueued.map some).Sublist (a.messages.ended.map fun m => (MessageBuilder.built m).serialize)
  complete : a.failed = false →
    a.endpoint.enqueued.map some = a.messages.ended.map fun m => (MessageBuilder.built m).serialize
  kinds : ∀ entry ∈ a.entries, entry.isResponse = true ∨ entry.isBlock = true

open Account (Sound)

theorem sound_create (stream : StreamPtr) : (Account.create stream).Sound :=
  ⟨rfl, .slnil, fun _ => rfl, fun _ h => (List.not_mem_nil h).elim⟩

theorem Account.Sound.same (h : Sound ⟨e, entries, failed⟩) {e' : InboundEndpoint}
    (hbuilder : e'.responseBuilder = e.responseBuilder) (henqueued : e'.enqueued = e.enqueued) :
    Sound ⟨e', entries, failed⟩ where
  builder := hbuilder.trans h.builder
  sent := henqueued ▸ h.sent
  complete hfailed := henqueued ▸ h.complete hfailed
  kinds := h.kinds

theorem Account.Sound.weaken (h : Sound ⟨e, entries, failed⟩) : Sound ⟨e, entries, true⟩ where
  builder := h.builder
  sent := h.sent
  complete hfailed := absurd hfailed.symm Bool.false_ne_true
  kinds := h.kinds

theorem messages_response (e : InboundEndpoint) (entries : List Added) (failed : Bool) (id : RequestId)
    (status : ResponseStatusCode) (extensions : List Extension) :
    Account.messages ⟨e, entries ++ [.response id status extensions], failed⟩ =
      ⟨(batched Added.isResponse entries).ended ++
        [(batched Added.isResponse entries).pending ++ [.response id status extensions]], []⟩ :=
  batched_concat _ _ _

theorem messages_block (e : InboundEndpoint) (entries : List Added) (failed : Bool) (cid : CID) (data : Bytes) :
    Account.messages ⟨e, entries ++ [.block cid data], failed⟩ =
      ⟨(batched Added.isResponse entries).ended, (batched Added.isResponse entries).pending ++ [.block cid data]⟩ :=
  batched_concat _ _ _

theorem Account.Sound.flush (h : Sound ⟨e, entries, failed⟩) (closed : Bool) (id : RequestId)
    (status : ResponseStatusCode) (extensions : List Extension) :
    let flushed := e.flush closed (e.responseBuilder.addResponse id status extensions)
    Sound ⟨flushed.1, entries ++ [.response id status extensions], failed || flushed.2.toOption.isNone⟩ := by
  intro flushed
  obtain ⟨hempty, hcases⟩ := flush_cases closed e (e.responseBuilder.addResponse id status extensions)
  have hbuilt : e.responseBuilder.addResponse id status extensions =
      .built ((batched Added.isResponse entries).pending ++ [.response id status extensions]) := by
    rw [MessageBuilder.built_concat, h.builder]
    rfl
  have hkinds : ∀ entry ∈ entries ++ [Added.response id status extensions],
      entry.isResponse = true ∨ entry.isBlock = true :=
    List.forall_mem_append.mpr ⟨h.kinds, List.forall_mem_singleton.mpr (.inl rfl)⟩
  obtain ⟨hok, buffer, hserialize, henqueued⟩ | ⟨⟨err, herror⟩, henqueued⟩ := hcases
  · refine ⟨?_, ?_, fun hfailed => ?_, hkinds⟩
    · rw [messages_response]
      exact hempty
    · rw [messages_response, henqueued, List.map_append, List.map_append, List.map_singleton, List.map_singleton,
        ← hbuilt, hserialize]
      exact h.sent.append (List.Sublist.refl _)
    · rw [messages_response, henqueued, List.map_append, List.map_append, List.map_singleton, List.map_singleton,
        ← hbuilt, hserialize]
      exact congrArg (· ++ [some buffer]) (h.complete (Bool.or_eq_false_iff.mp hfailed).1)
  · refine ⟨?_, ?_, fun hfailed => ?_, hkinds⟩
    · rw [messages_response]
      exact hempty
    · rw [messages_response, henqueued, List.map_append]
      exact h.sent.trans (List.sublist_append_left _ _)
    · simp only [flushed, herror] at hfailed
      rw [Bool.or_eq_false_iff] at hfailed
      cases hfailed.2

theorem Account.Sound.block (h : Sound ⟨e, entries, failed⟩) (cid : CID) (data : Bytes) :
    Sound ⟨(e.addDataBlock cid data).1, entries ++ [.block cid data], failed⟩ where
  builder := by
    rw [messages_block, MessageBuilder.built_concat]
    exact congrArg (fun b => (b.addDataBlock cid data).1) h.builder
  sent := by
    rw [messages_block]
    exact h.sent
  complete hfailed := by
    rw [messages_block]
    exact h.complete hfailed
  kinds := List.forall_mem_append.mpr ⟨h.kinds, List.forall_mem_singleton.mpr (.inr rfl)⟩

theorem Account.Sound.or (h : Sound ⟨e, entries, failed⟩) (more : Bool) : Sound ⟨e, entries, failed || more⟩ := by
  cases more with
  | false => rwa [Bool.or_false]
  | true => rw [Bool.or_true]; exact h.weaken

theorem Account.Sound.step (h : Sound ⟨e, entries, failed⟩) (op : Op) : (Account.step ⟨e, entries, failed⟩ op).Sound := by
  cases op with
  | sendResponse closed id status extensions => exact h.flush closed id status extensions
  | request closed buffer =>
    have hsame : Sound ⟨{ e with queue := (e.queue.enqueue closed buffer).1 }, entries, failed⟩ := h.same rfl rfl
    rw [Account.step, noted, List.append_nil]
    exact hsame.or _
  | messageWritten closed res =>
    have hsame : Sound ⟨{ e with queue := (e.queue.onMessageWritten closed res).1 }, entries, failed⟩ := h.same rfl rfl
    rw [Account.step, noted, List.append_nil]
    exact hsame.or _
  | addBlockToResponse closed id cid data =>
    rw [Account.step]
    simp only [apply, addBlockToResponse, noted]
    by_cases hover : e.overflows data = true
    · rw [if_pos hover, if_pos hover, List.append_nil]
      exact h.or _
    rw [if_neg hover, if_neg hover]
    by_cases hsplit : e.needsSplit data = true
    · rw [if_pos hsplit, if_pos hsplit]
      have hflush := h.flush closed id .partialContent []
      rw [← sendPartialResponse] at hflush
      cases hsent : e.sendPartialResponse closed id with
      | mk e' result =>
        simp only [hsent] at hflush ⊢
        cases result with
        | error err => exact hflush
        | ok _ =>
          have hblock := (hflush.block cid data).or (e'.addDataBlock cid data).2.toOption.isNone
          rw [List.append_assoc, List.singleton_append, Except.toOption, Option.isNone_some, Bool.or_false] at hblock
          exact hblock
    · rw [if_neg hsplit, if_neg hsplit]
      exact (h.block cid data).or _

end

theorem sound_run (stream : StreamPtr) (ops : List Op) : (Account.run stream ops).Sound := by
  have hgen : ∀ (a : Account), a.Sound → (ops.foldl Account.step a).Sound := by
    induction ops with
    | nil => exact fun a h => h
    | cons op ops ih => exact fun a h => ih _ (h.step op)
  exact hgen _ (sound_create stream)

theorem Account.messages_flatten (a : Account) : a.messages.ended.flatten ++ a.messages.pending = a.entries :=
  batched_flatten _ _

theorem Account.mem_entries {a : Account} {m : List Added} (hm : m ∈ a.messages.ended) :
    ∀ entry ∈ m, entry ∈ a.entries := by
  intro entry hentry
  rw [← a.messages_flatten]
  exact List.mem_append_left _ (List.mem_flatten.mpr ⟨m, hm, hentry⟩)

/-- **A message is what was collected before a response**: whatever is called, the blocks that were taken are in the
messages and in the builder, each once and in order, every message ends with the one response it has, and when no
call has failed the messages are what is in the queue. -/
theorem messages_flushed (stream : StreamPtr) (ops : List Op) :
    let a := Account.run stream ops
    a.messages.ended.flatten ++ a.messages.pending = a.entries ∧
    (∀ m ∈ a.messages.ended, ∃ blocks id status extensions, m = blocks ++ [.response id status extensions] ∧
      ∀ b ∈ blocks, b.isBlock = true) ∧
    (∀ b ∈ a.messages.pending, b.isBlock = true) ∧
    a.endpoint.responseBuilder = .built a.messages.pending ∧
    (a.endpoint.enqueued.map some).Sublist (a.messages.ended.map fun m => (MessageBuilder.built m).serialize) ∧
    (a.failed = false →
      a.endpoint.enqueued.map some = a.messages.ended.map fun m => (MessageBuilder.built m).serialize) := by
  intro a
  have hsound : a.Sound := sound_run stream ops
  obtain ⟨hended, hpending⟩ := batched_shape Added.isResponse a.entries
  have hblock : ∀ b ∈ a.entries, b.isResponse = false → b.isBlock = true := fun b hb hno =>
    (hsound.kinds b hb).resolve_left (by rw [hno]; exact Bool.false_ne_true)
  refine ⟨a.messages_flatten, fun m hm => ?_, fun b hb => ?_, hsound.builder, hsound.sent, hsound.complete⟩
  · obtain ⟨blocks, last, rfl, hlast, hblocks⟩ := (hended m hm).exists_last
    cases last with
    | response id status extensions =>
      refine ⟨blocks, id, status, extensions, rfl, fun b hb => hblock b ?_ (hblocks b hb)⟩
      exact a.mem_entries hm b (List.mem_append_left _ hb)
    | request | cancel | block => cases hlast
  · refine hblock b ?_ (hpending b hb)
    rw [← a.messages_flatten]
    exact List.mem_append_right _ hb

/-! ## Where the entries come from -/

/-- What a call is to add. -/
def Op.entry : Op → Option Added
  | .addBlockToResponse _ _ cid data => some (.block cid data)
  | .sendResponse _ id status extensions => some (.response id status extensions)
  | .request _ _ | .messageWritten _ _ => none

/-- A call adds its own entry, and a partial response when it makes room. -/
theorem mem_noted {e : InboundEndpoint} {op : Op} {entry : Added} (h : entry ∈ e.noted op) :
    op.entry = some entry ∨
      ∃ closed id cid data, op = .addBlockToResponse closed id cid data ∧ entry = .response id .partialContent [] := by
  cases op with
  | addBlockToResponse closed id cid data =>
    simp only [noted] at h
    split_ifs at h
    · exact (List.not_mem_nil h).elim
    · cases hsent : (e.sendPartialResponse closed id).2 with
      | error err =>
        simp only [hsent] at h
        exact .inr ⟨closed, id, cid, data, rfl, List.mem_singleton.mp h⟩
      | ok _ =>
        simp only [hsent] at h
        obtain hpart | hblock := List.mem_cons.mp h
        · exact .inr ⟨closed, id, cid, data, rfl, hpart⟩
        · exact .inl (congrArg some (List.mem_singleton.mp hblock).symm)
    · exact .inl (congrArg some (List.mem_singleton.mp h).symm)
  | sendResponse closed id status extensions => exact .inl (congrArg some (List.mem_singleton.mp h).symm)
  | request | messageWritten => exact (List.not_mem_nil h).elim

/-- A call that returns no error has added its entry. -/
theorem entry_noted {e : InboundEndpoint} {op : Op} (h : (e.apply op).2.toOption.isNone = false) :
    op.entry.toList.Sublist (e.noted op) := by
  cases op with
  | addBlockToResponse closed id cid data =>
    simp only [apply, addBlockToResponse] at h
    simp only [noted]
    split_ifs at h ⊢
    · cases h
    · cases hsent : e.sendPartialResponse closed id with
      | mk e' result =>
        simp only [hsent] at h ⊢
        cases result with
        | error err => cases h
        | ok _ => exact List.sublist_cons_self _ _
    · exact List.Sublist.refl _
  | sendResponse closed id status extensions => exact List.Sublist.refl _
  | request | messageWritten => exact List.Sublist.refl _

theorem Account.run_concat (stream : StreamPtr) (ops : List Op) (op : Op) :
    run stream (ops ++ [op]) = (run stream ops).step op := by
  rw [run, List.foldl_append]
  rfl

theorem entry_of_run {stream : StreamPtr} {ops : List Op} {entry : Added}
    (h : entry ∈ (Account.run stream ops).entries) : ∃ op ∈ ops, op.entry = some entry ∨
      ∃ closed id cid data, op = .addBlockToResponse closed id cid data ∧ entry = .response id .partialContent [] := by
  induction ops using List.reverseRecOn with
  | nil => exact (List.not_mem_nil h).elim
  | append_singleton ops op ih =>
    rw [Account.run_concat] at h
    obtain hbefore | hnew := List.mem_append.mp h
    · obtain ⟨op', hop', hentry⟩ := ih hbefore
      exact ⟨op', List.mem_append_left _ hop', hentry⟩
    · exact ⟨op, List.mem_append_right _ List.mem_cons_self, mem_noted hnew⟩

/-- When no call has failed, all have added their entries. -/
theorem entries_of_run {stream : StreamPtr} {ops : List Op} (h : (Account.run stream ops).failed = false) :
    (ops.filterMap Op.entry).Sublist (Account.run stream ops).entries := by
  induction ops using List.reverseRecOn with
  | nil => exact List.Sublist.refl _
  | append_singleton ops op ih =>
    rw [Account.run_concat] at h ⊢
    obtain ⟨hbefore, hnow⟩ := Bool.or_eq_false_iff.mp h
    rw [List.filterMap_append, List.filterMap_cons, List.filterMap_nil]
    refine (ih hbefore).append ?_
    have hnew := entry_noted hnow
    cases hentry : op.entry with
    | none => exact List.nil_sublist _
    | some entry =>
      rw [hentry] at hnew
      exact hnew

/-! ## What the reader makes of them -/

/-- What a message of an endpoint is to its reader. -/
def sentMessage (m : List Added) : Message :=
  ⟨false, m.filterMap Added.sentRequest, m.filterMap Added.sentResponse, m.filterMap Added.sentBlock⟩

theorem opened_serialize {m : List Added} (hok : ∀ entry ∈ m, entry.Ok H) (hnonempty : m ≠ [])
    (hsmall : (MessageBuilder.built m).getSerializedSize ≤ kMaxMessageSize) :
    (MessageBuilder.built m).serialize.bind (Transport.opened H) = some (sentMessage m) := by
  let p : Parcel H := ⟨m, hok, hnonempty, hsmall⟩
  have hserialize : (MessageBuilder.built m).serialize = some p.buffer := p.serialize_builder
  rw [hserialize, Option.bind_some, Transport.opened_buffer]
  rfl

section
variable {a : Account}

/-- When nothing has failed, the reader finds the messages in the buffers. -/
theorem Account.Sound.opened_enqueued (h : a.Sound) (hok : ∀ entry ∈ a.entries, entry.Ok H)
    (hsmall : ∀ m ∈ a.messages.ended, (MessageBuilder.built m).getSerializedSize ≤ kMaxMessageSize)
    (hnone : a.failed = false) :
    a.endpoint.enqueued.map (Transport.opened H) = (a.messages.ended.map sentMessage).map some := by
  have hsent := congrArg (List.map fun buffer => buffer.bind (Transport.opened H)) (h.complete hnone)
  rw [List.map_map, List.map_map] at hsent
  rw [List.map_map]
  refine hsent.trans (List.map_congr_left fun m hm => ?_)
  obtain ⟨init, last, hm', -⟩ := ((batched_shape Added.isResponse a.entries).1 m hm).exists_last
  refine opened_serialize (fun entry hentry => hok entry (a.mem_entries hm entry hentry)) ?_ (hsmall m hm)
  rw [hm']
  exact List.concat_ne_nil last init

/-- They have no requests. -/
theorem Account.Sound.plain (h : a.Sound) :
    ∀ m ∈ a.messages.ended.map sentMessage, m.completeRequestList = false ∧ m.requests = [] := by
  intro m hm
  obtain ⟨entries, hentries, rfl⟩ := List.mem_map.mp hm
  refine ⟨rfl, List.filterMap_eq_nil_iff.mpr fun entry hentry => ?_⟩
  have hkind := h.kinds entry (a.mem_entries hentries entry hentry)
  cases entry with
  | request | cancel => cases hkind.resolve_left Bool.false_ne_true
  | response | block => rfl

end

end InboundEndpoint
end IpfsLite.Graphsync
