import IpfsLite.Graphsync.AcceptedMessages
import IpfsLite.Graphsync.BlockDelivery
import IpfsLite.Graphsync.ContentAnswers
import IpfsLite.Graphsync.ResponseStream

/-! # From the store of one node to the feedbacks of another

The tasks of the responder, the endpoint of the stream on which a peer has asked, the messages on the wire, and the
context of the peer. -/
namespace IpfsLite.Graphsync
set_option autoImplicit false

open Batches Reentrant
open Ipld Merkledag
open InboundEndpoint (Account sentMessage)
open Responder (Output Selected Workload blockOf)

variable {ε Q : Type} {H : Hasher}

/-! ## At the endpoint -/

namespace Responder

/-- What a call on the endpoint of a peer passes on. -/
def outputOf (p : PeerId) : InboundEndpoint.Op → Option Output
  | .addBlockToResponse _ id cid data => some (.block p id (cid, data))
  | .sendResponse _ id status extensions => some (.response p id status extensions)
  | .request _ _ | .messageWritten _ _ => none

def Output.added : Output → Added
  | .block _ _ b => .block b.1 b.2
  | .response _ id status extensions => .response id status extensions

/-- The calls on the endpoint of a peer, in the order in which the tasks make them, among whatever else happens to its
queue. -/
def Reaches (s : State Q) (p : PeerId) (ops : List InboundEndpoint.Op) : Prop :=
  ops.filterMap (outputOf p) = s.out.filter fun o => o.peer = p

/-- The request was read from the wire. -/
def Arrived (H : Hasher) (request : Message.Request) : Prop :=
  ∃ bytes msg, parseMessage H bytes = .ok msg ∧ request ∈ msg.requests

end Responder

open Responder (Arrived Reaches outputOf)

theorem arrived_ok {request : Message.Request} (h : Arrived H request) :
    Wire.IsInt32 request.id ∧ Added.Named request.extensions := by
  obtain ⟨bytes, msg, hparse, hmem⟩ := h
  have hok := (entry_of_accepted hparse request hmem).1
  have hextensions : request.cancel = true → request.extensions = [] := by
    intro hcancel
    obtain ⟨pb, -, hrequests, -, -⟩ := parseMessage_ok hparse
    refine forall₂_right (q := fun r => r.cancel = true → r.extensions = []) hrequests ?_ request hmem hcancel
    intro src r hr hc
    unfold parseRequest at hr
    split_ifs at hr
    · rw [← Fallible.ok_inj hr]
      rfl
    · split at hr
      · cases hr
      · rw [← Fallible.ok_inj hr] at hc
        cases hc
  unfold Message.Request.entry at hok
  split_ifs at hok with hcancel
  · rw [hextensions hcancel]
    exact ⟨hok, List.nodup_nil, fun _ he => (List.not_mem_nil he).elim⟩
  · exact ⟨hok.1, hok.2.2⟩

section
variable {s : Responder.State Q} {p : PeerId} {ops : List InboundEndpoint.Op}

theorem entry_eq_outputOf (p : PeerId) (op : InboundEndpoint.Op) : op.entry = (outputOf p op).map Output.added := by
  cases op <;> rfl

theorem output_of_mem (h : Reaches s p ops) {op : InboundEndpoint.Op} (hop : op ∈ ops) {o : Output}
    (ho : outputOf p op = some o) : o ∈ s.out := by
  have hmem : o ∈ ops.filterMap (outputOf p) := List.mem_filterMap.mpr ⟨op, hop, ho⟩
  rw [h] at hmem
  exact (List.mem_filter.mp hmem).1

theorem block_of_entry (h : Reaches s p ops) {stream : StreamPtr} {cid : CID} {data : Bytes}
    (hentry : .block cid data ∈ (Account.run stream ops).entries) : ∃ id, .block p id (cid, data) ∈ s.out := by
  obtain ⟨op, hop, hentry | ⟨closed, id, cid', data', -, hpart⟩⟩ := InboundEndpoint.entry_of_run hentry
  · cases op with
    | addBlockToResponse closed id cid' data' =>
      cases Option.some.inj hentry
      exact ⟨id, output_of_mem h hop rfl⟩
    | sendResponse | request | messageWritten => cases hentry
  · cases hpart

/-- A response is one of a task, or makes room for a block. -/
theorem response_of_entry (h : Reaches s p ops) {stream : StreamPtr} {id : RequestId} {status : ResponseStatusCode}
    {extensions : List Extension} (hentry : .response id status extensions ∈ (Account.run stream ops).entries) :
    .response p id status extensions ∈ s.out ∨
      status = .partialContent ∧ extensions = [] ∧ ∃ b, .block p id b ∈ s.out := by
  obtain ⟨op, hop, hentry | ⟨closed, id', cid, data, rfl, hpart⟩⟩ := InboundEndpoint.entry_of_run hentry
  · cases op with
    | sendResponse closed id' status' extensions' =>
      cases Option.some.inj hentry
      exact .inl (output_of_mem h hop rfl)
    | addBlockToResponse | request | messageWritten => cases hentry
  · cases hpart
    exact .inr ⟨rfl, rfl, (cid, data), output_of_mem h hop rfl⟩

variable {W : Workload Q} {stores : InstanceId → CID → Except ε Bytes}

theorem sha256_toBytes (H : Hasher) (bytes : Bytes) :
    (⟨.v0, Multicodec.dagPb, H.sha256 bytes⟩ : CID).toBytes.isSome = true := by
  have hv0 : (⟨.v0, Multicodec.dagPb, H.sha256 bytes⟩ : CID).IsV0 := ⟨rfl, rfl, rfl, H.sha2_256_length bytes⟩
  simp only [CID.toBytes, if_pos hv0]
  rfl

/-- What the tasks pass on is fit to be sent. -/
theorem entries_fit (haccounted : Responder.Accounted (W.serve H stores) s)
    (harrived : ∀ q, W.peer q = p → Arrived H (W.request q)) (h : Reaches s p ops) (stream : StreamPtr) :
    ∀ entry ∈ (Account.run stream ops).entries, entry.Ok H := by
  intro entry hentry
  have hkind := (InboundEndpoint.sound_run stream ops).kinds entry hentry
  cases entry with
  | request | cancel => cases hkind.resolve_left Bool.false_ne_true
  | block cid data =>
    obtain ⟨id, hsent⟩ := block_of_entry h hentry
    obtain ⟨before, hreason⟩ := haccounted.founded.of_mem hsent
    obtain ⟨-, -, -, -, -, -, -, -, hcid, -⟩ := Responder.Reason.content hreason
    simp only at hcid
    rw [Added.Ok, hcid]
    exact ⟨sha256_toBytes H data, H.calculate_sha256 data⟩
  | response id status extensions =>
    obtain hsent | ⟨rfl, rfl, b, hsent⟩ := response_of_entry h hentry
    · obtain ⟨before, hreason⟩ := haccounted.founded.of_mem hsent
      obtain ⟨q, hpeer, hid, hanswer⟩ := Responder.Reason.answer hreason
      obtain ⟨hint, hnamed⟩ := arrived_ok (harrived q hpeer)
      have hint' : Wire.IsInt32 id := hid ▸ hint
      obtain ⟨rfl, rfl⟩ | ⟨rfl, rfl, -⟩ := hanswer
      · exact ⟨hint', by decide, List.nodup_nil, fun _ he => (List.not_mem_nil he).elim⟩
      · exact ⟨hint', by decide, hnamed⟩
    · obtain ⟨before, hreason⟩ := haccounted.founded.of_mem hsent
      obtain ⟨q, -, -, -, hpeer, hid, -⟩ := Responder.Reason.content hreason
      have hint : Wire.IsInt32 id := hid ▸ (arrived_ok (harrived q hpeer)).1
      exact ⟨hint, by decide, List.nodup_nil, fun _ he => (List.not_mem_nil he).elim⟩

/-- A whole selection comes before its answer in the messages that were ended. -/
theorem selection_ended (haccounted : Responder.Accounted (W.serve H stores) s) (h : Reaches s p ops)
    {stream : StreamPtr} (hnone : (Account.run stream ops).failed = false) {id : RequestId}
    {extensions : List Extension}
    (hentry : .response id .fullContent extensions ∈ (Account.run stream ops).entries) :
    ∃ q k nodes, k < W.width q ∧ W.peer q = p ∧ W.id q = id ∧ Selected (stores (W.inst q k)) (W.request q) nodes ∧
      (((nodes.map (blockOf H)).filter fun b => !b.2.isEmpty).map fun b => Added.block b.1 b.2).Sublist
        (Account.run stream ops).messages.ended.flatten := by
  obtain hsent | ⟨hpart, -⟩ := response_of_entry h hentry
  · obtain ⟨before, after, hout⟩ := List.append_of_mem hsent
    obtain ⟨q, hpeer, hid, ⟨hrejected, -⟩ | ⟨-, -, k, hk, nodes, hselected, hbefore⟩⟩ :=
      Responder.Reason.answer (haccounted.founded before _ after hout)
    · cases hrejected
    refine ⟨q, k, nodes, hk, hpeer, hid, hselected, ?_⟩
    -- the blocks and the answer, in the order of the outputs
    have hordered :
        (W.outputs q (nodes.map (blockOf H)) ++ [Output.response p id .fullContent extensions]).Sublist s.out := by
      rw [hout]
      exact hbefore.append (List.singleton_sublist.mpr List.mem_cons_self)
    have hpeers : ∀ o ∈ W.outputs q (nodes.map (blockOf H)) ++ [Output.response p id .fullContent extensions],
        decide (o.peer = p) = true := by
      refine List.forall_mem_append.mpr ⟨fun o ho => ?_, List.forall_mem_singleton.mpr (decide_eq_true rfl)⟩
      obtain ⟨b, -, rfl⟩ := List.mem_map.mp ho
      exact decide_eq_true hpeer
    have hours := hordered.filter fun o => decide (o.peer = p)
    rw [List.filter_eq_self.mpr hpeers, ← h] at hours
    have hentries : (ops.filterMap (outputOf p)).map Output.added = ops.filterMap InboundEndpoint.Op.entry := by
      rw [List.map_filterMap]
      exact List.filterMap_congr fun op _ => (entry_eq_outputOf p op).symm
    have hadded := hours.map Output.added
    rw [hentries, List.map_append, Workload.outputs, List.map_map] at hadded
    have hrun := hadded.trans (InboundEndpoint.entries_of_run hnone)
    exact (List.sublist_append_left _ _).trans (sublist_ended hrun rfl)
  · cases hpart

end

/-! ## At the feedbacks -/

namespace PeerContext

/-- The blocks that a feedback was called with. -/
def blocksFor (fb : InstanceId) (calls : List Call) : List Block :=
  calls.filterMap fun c =>
    match c with
    | .onBlock i _ cid data => if i = fb then some (cid, data) else none
    | _ => none

section
variable {fb : InstanceId} {feedbacks : List InstanceId}

theorem blocksFor_append (calls more : List Call) :
    blocksFor fb (calls ++ more) = blocksFor fb calls ++ blocksFor fb more := List.filterMap_append

/-- Each feedback gets each block. -/
theorem blocksFor_handedOn (hfb : fb ∈ feedbacks) (data : List Block) :
    data.Sublist (blocksFor fb (handedOn feedbacks data)) := by
  cases data with
  | nil => exact List.nil_sublist _
  | cons first rest =>
    have hitems : ∀ items : List Block, items.Sublist
        (blocksFor fb (items.flatMap fun item => feedbacks.map fun i => .onBlock i first.1 item.1 item.2)) := by
      intro items
      induction items with
      | nil => exact List.nil_sublist _
      | cons item items ih =>
        rw [List.flatMap_cons, blocksFor_append, ← List.singleton_append]
        refine List.Sublist.append (List.singleton_sublist.mpr ?_) ih
        exact List.mem_filterMap.mpr ⟨_, List.mem_map.mpr ⟨fb, hfb, rfl⟩, if_pos rfl⟩
    exact hitems (first :: rest)

theorem blocksFor_messages (hfb : fb ∈ feedbacks) (msgs : List Message) :
    (msgs.flatMap Message.data).Sublist (blocksFor fb (msgs.flatMap fun m => handedOn feedbacks m.data)) := by
  induction msgs with
  | nil => exact List.nil_sublist _
  | cons m msgs ih =>
    rw [List.flatMap_cons, List.flatMap_cons, blocksFor_append]
    exact (blocksFor_handedOn hfb m.data).append ih

theorem mem_handedOn {root cid : CID} {data : Bytes} {items : List Block}
    (h : .onBlock fb root cid data ∈ handedOn feedbacks items) : (cid, data) ∈ items := by
  cases items with
  | nil => exact (List.not_mem_nil h).elim
  | cons first rest =>
    obtain ⟨item, hitem, h⟩ := List.mem_flatMap.mp h
    obtain ⟨i, -, heq⟩ := List.mem_map.mp h
    cases heq
    exact hitem

end

/-- What the task of `answeringRun` does at the endpoint. -/
def letterOps : List InboundEndpoint.Op :=
  [.addBlockToResponse false 1 ⟨.v0, Multicodec.dagPb, emptyHasher.sha256 [0x0a, 1, 0x41]⟩ [0x0a, 1, 0x41],
    .sendResponse false 1 .fullContent []]

/-- Two feedbacks, stream 5 and request 1. -/
def waitingContext : PeerContext :=
  { create 9 [0, 1] ⟨fun _ => false, 0⟩ with
      localRequestIds := OrdMap.empty.insert 1 ()
      streams := OrdMap.empty.insert 5 .initial }

end PeerContext

end IpfsLite.Graphsync
