import IpfsLite.Graphsync.DispatchOrder
import IpfsLite.Graphsync.ResponseBatches

/-! # The blocks that a requester hands on

A message has no root in it. The context of the requester takes the first block of a message for the root of all of
them, and hands every block to every feedback under that root. -/
namespace IpfsLite.Graphsync.PeerContext
set_option autoImplicit false

open Reentrant

def blockCalls (calls : List Call) : List Call := calls.filter Call.isBlock

/-- What the feedbacks are called with for the blocks of a message. -/
def handedOn (feedbacks : List InstanceId) (data : List Block) : List Call :=
  match data with
  | [] => []
  | root :: _ => data.flatMap fun item => feedbacks.map fun fb => .onBlock fb root.1 item.1 item.2

/-- The feedbacks may do anything but close the context or the stream. They cannot hand a block on or register
another feedback. -/
structure Leaves (stream : StreamPtr) (x y : Trace PeerContext Call) : Prop where
  closed : y.1.closed = x.1.closed
  stream : y.1.streams.contains stream = x.1.streams.contains stream
  feedbacks : y.1.graphsyncFeedbacks = x.1.graphsyncFeedbacks
  blocks : blockCalls y.2 = blockCalls x.2

section
variable {stream : StreamPtr} {feedbacks : List InstanceId} {told : List Call} {x y z : Trace PeerContext Call}

theorem Leaves.refl (x : Trace PeerContext Call) : Leaves stream x x := ⟨rfl, rfl, rfl, rfl⟩

theorem Leaves.trans (h : Leaves stream x y) (h' : Leaves stream y z) : Leaves stream x z :=
  ⟨h'.closed.trans h.closed, h'.stream.trans h.stream, h'.feedbacks.trans h.feedbacks, h'.blocks.trans h.blocks⟩

theorem leaves_rely : Rely (Leaves stream) (Leaves stream) fun _ => True where
  refl := Leaves.refl
  trans := Leaves.trans
  absorb h := h
  stable _ _ := trivial

/-- The context listens on the stream, and has handed on what it was to. -/
structure Delivered (stream : StreamPtr) (feedbacks : List InstanceId) (told : List Call)
    (x : Trace PeerContext Call) : Prop where
  closed : x.1.closed = false
  stream : x.1.streams.contains stream = true
  feedbacks : x.1.graphsyncFeedbacks = feedbacks
  blocks : blockCalls x.2 = told

theorem Delivered.left (h : Delivered stream feedbacks told x) (hxy : Leaves stream x y) :
    Delivered stream feedbacks told y :=
  ⟨hxy.closed.trans h.closed, hxy.stream.trans h.stream, hxy.feedbacks.trans h.feedbacks, hxy.blocks.trans h.blocks⟩

/-- Programs that hand on `told` in all, whatever the feedbacks do. -/
abbrev Delivers (stream : StreamPtr) (feedbacks : List InstanceId) (told : List Call) {α : Type} (p : Action α)
    (x : Trace PeerContext Call) : Prop :=
  Meets (Leaves stream) (fun _ _ => True) (fun _ y => Delivered stream feedbacks told y) (p x.1) x.2

theorem delivers_call (h : Delivered stream feedbacks told x) (c : Call) :
    Delivers stream feedbacks (told ++ blockCalls [c]) (Prog.call c) x := by
  have hcalled : Delivered stream feedbacks (told ++ blockCalls [c]) (x.1, x.2 ++ [c]) := by
    refine ⟨h.closed, h.stream, h.feedbacks, ?_⟩
    rw [blockCalls, List.filter_append, ← h.blocks]
    rfl
  exact ⟨trivial, fun y hy => hcalled.left hy⟩

/-- The rule of a loop. -/
theorem delivers_forM {β : Type} {f : β → Action PUnit} {calls : β → List Call} {bs : List β}
    (hstep : ∀ b ∈ bs, ∀ told y, Delivered stream feedbacks told y →
      Delivers stream feedbacks (told ++ calls b) (f b) y) (h : Delivered stream feedbacks told x) :
    Delivers stream feedbacks (told ++ bs.flatMap calls) (bs.forM f) x := by
  induction bs generalizing told x with
  | nil =>
    rw [List.flatMap_nil, List.append_nil]
    exact h
  | cons b bs ih =>
    rw [List.flatMap_cons, ← List.append_assoc]
    refine Meets.bind ((hstep b List.mem_cons_self told x h).mono fun _ y hy => ?_)
    exact ih (fun c hc => hstep c (List.mem_cons_of_mem b hc)) hy

theorem delivers_onBlocks (h : Delivered stream feedbacks told x) (data : List Block) :
    Delivers stream feedbacks (told ++ handedOn feedbacks data) (onBlocks data) x := by
  refine Meets.get ?_
  rw [h.feedbacks]
  cases data with
  | nil =>
    rw [handedOn, List.append_nil]
    exact h
  | cons root rest =>
    refine delivers_forM (fun item _ told y hy => ?_) h
    rw [List.map_eq_flatMap]
    exact delivers_forM (fun fb _ told z hz => delivers_call hz (.onBlock fb root.1 item.1 item.2)) hy

/-- What hands no block on and leaves the context open. -/
theorem delivers_of_keeps {α : Type} {p : Action α} (h : Delivered stream feedbacks told x)
    (hp : Keeps (Leaves stream) (Leaves stream) (fun _ _ => True) (fun _ => True) x p) :
    Delivers stream feedbacks told p x :=
  (hp trivial).mono fun _ _ hxy => h.left hxy

theorem leaves_notify (id : RequestId) (status : ResponseStatusCode) (extensions : List Extension) :
    Keeps (Leaves stream) (Leaves stream) (fun _ _ => True) (fun _ => True) x (notify id status extensions) := by
  refine keeps_notify leaves_rely.logic (fun _ => ⟨rfl, rfl, rfl, rfl⟩) fun y fb => ?_
  refine Keeps.call leaves_rely fun _ => ⟨trivial, rfl, rfl, rfl, ?_⟩
  rw [blockCalls, List.filter_append]
  exact List.append_nil _

/-- A message without requests. -/
theorem delivers_onReaderEvent (h : Delivered stream feedbacks told x) {msg : Message}
    (hlist : msg.completeRequestList = false) (hrequests : msg.requests = []) :
    Delivers stream feedbacks (told ++ handedOn feedbacks msg.data) (onReaderEvent stream (some msg)) x := by
  refine Meets.get ?_
  rw [if_pos h.closed]
  simp only
  rw [if_pos h.stream, hlist, hrequests]
  -- no request list to drop and no request to answer
  change Meets _ _ _ ((do
    msg.responses.forM onResponse
    onBlocks msg.data
    Prog.modify (shiftExpireTime stream)) x.1) x.2
  have hresponses : Delivers stream feedbacks told (msg.responses.forM onResponse) x := by
    refine delivers_of_keeps h (Keeps.forM leaves_rely fun r _ y _ => ?_)
    exact keeps_onResponse leaves_rely.logic (fun _ => ⟨rfl, rfl, rfl, rfl⟩) fun z => leaves_notify _ _ _
  refine Meets.seq (hresponses.mono fun _ y hy => ?_)
  refine Meets.seq ((delivers_onBlocks hy msg.data).mono fun _ z hz => ?_)
  have hshift := (Plain.shiftExpireTime z.1 stream).toSilent
  exact hz.left ⟨hshift.closed, hshift.streams stream, hshift.feedbacks, rfl⟩

theorem delivers_messages {msgs : List Message}
    (hplain : ∀ m ∈ msgs, m.completeRequestList = false ∧ m.requests = []) (h : Delivered stream feedbacks told x) :
    Delivers stream feedbacks (told ++ msgs.flatMap fun m => handedOn feedbacks m.data)
      (msgs.forM fun m => onReaderEvent stream (some m)) x :=
  delivers_forM (fun m hm _ _ hy => delivers_onReaderEvent hy (hplain m hm).1 (hplain m hm).2) h

end

/-! ## From one end to the other -/

section
variable {H : Hasher}

open InboundEndpoint in
/-- **Every block is handed on**: when the endpoint of the responder has refused nothing, the requester that reads its
messages hands each block to each feedback, once and in the order in which the blocks were added, with the first block
of the message for the root, whichever request the blocks were added for. -/
theorem blocks_handed_on {responder requester : StreamPtr} {ops : List InboundEndpoint.Op}
    (hok : ∀ entry ∈ (Account.run responder ops).entries, entry.Ok H)
    (hsmall : ∀ m ∈ (Account.run responder ops).messages.ended,
      (MessageBuilder.built m).getSerializedSize ≤ kMaxMessageSize)
    (hnone : (Account.run responder ops).failed = false) {x : Trace PeerContext Call} (hopen : x.1.closed = false)
    (hstream : x.1.streams.contains requester = true) :
    ∃ msgs : List Message,
      (Account.run responder ops).endpoint.enqueued.map (Transport.opened H) = msgs.map some ∧
      (msgs.flatMap Message.data) ++ (Account.run responder ops).messages.pending.filterMap Added.sentBlock =
        (Account.run responder ops).entries.filterMap Added.sentBlock ∧
      Meets (Leaves requester) (fun _ _ => True)
        (fun _ y => blockCalls y.2 =
          blockCalls x.2 ++ msgs.flatMap fun m => handedOn x.1.graphsyncFeedbacks m.data)
        ((msgs.forM fun m => onReaderEvent requester (some m)) x.1) x.2 := by
  set a := Account.run responder ops with ha
  have hsound : a.Sound := sound_run responder ops
  refine ⟨a.messages.ended.map sentMessage, hsound.opened_enqueued hok hsmall hnone, ?_, ?_⟩
  · rw [← a.messages_flatten, List.filterMap_append, List.filterMap_flatten, List.flatMap_map, List.flatMap_def]
    rfl
  · exact (delivers_messages hsound.plain ⟨hopen, hstream, rfl, rfl⟩).mono fun _ y hy => hy.blocks

/-- A block for each of two requests, and the responses to them. -/
def sharedOps : List InboundEndpoint.Op :=
  [.addBlockToResponse false 1 sampleCid [],
    .addBlockToResponse false 2 ⟨.v0, Multicodec.dagPb, sampleCid.contentAddress⟩ [],
    .sendResponse false 1 .fullContent [], .sendResponse false 2 .fullContent []]

/-- Two feedbacks and stream 5. -/
def listeningContext : PeerContext :=
  { create 9 [0, 1] ⟨fun _ => false, 0⟩ with streams := OrdMap.empty.insert 5 .initial }

open InboundEndpoint in
theorem shared_blocks_handed_on :
    ∃ msgs : List Message,
      (Account.run 0 sharedOps).endpoint.enqueued.map (Transport.opened emptyHasher) = msgs.map some ∧
      (msgs.flatMap Message.data) ++ (Account.run 0 sharedOps).messages.pending.filterMap Added.sentBlock =
        (Account.run 0 sharedOps).entries.filterMap Added.sentBlock ∧
      Meets (Leaves 5) (fun _ _ => True)
        (fun _ y => blockCalls y.2 = msgs.flatMap fun m => handedOn [0, 1] m.data)
        ((msgs.forM fun m => onReaderEvent 5 (some m)) listeningContext) [] := by
  have hentries : (Account.run 0 sharedOps).entries =
      [.block sampleCid [], .block ⟨.v0, Multicodec.dagPb, sampleCid.contentAddress⟩ [],
        .response 1 .fullContent [], .response 2 .fullContent []] := by
    decide +kernel
  refine blocks_handed_on (x := (listeningContext, [])) ?_ ?_ ?_ rfl ?_
  · rw [hentries]
    simp only [List.forall_mem_cons, List.not_mem_nil, false_implies, implies_true, and_true, Added.Ok, Added.Named]
    decide +kernel
  · decide +kernel
  · decide +kernel
  · decide +kernel

end
end IpfsLite.Graphsync.PeerContext
