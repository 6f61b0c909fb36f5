import IpfsLite.Graphsync.ContextRules
import IpfsLite.Graphsync.ResponseBatches

/-! # What a requester hears

The context of the requester reads the messages of a responder's endpoint. It forgets a request with the first
terminal status, and `RS_PARTIAL_CONTENT`, with which the endpoint makes room for a block, is terminal. -/
namespace IpfsLite.Graphsync.PeerContext
set_option autoImplicit false

open Reentrant Batches

/-- The statuses of a request that the feedbacks were told. -/
def reportsOf (id : RequestId) (s : PeerContext) : List ResponseStatusCode :=
  s.reported.filterMap fun r => if r.1 = id then some r.2 else none

/-- The feedbacks may do anything but close the context or the stream, repeat the request or cancel it. -/
structure Spares (stream : StreamPtr) (id : RequestId) (x y : Trace PeerContext Call) : Prop where
  closed : y.1.closed = x.1.closed
  stream : y.1.streams.contains stream = x.1.streams.contains stream
  asked : y.1.localRequestIds.contains id = x.1.localRequestIds.contains id
  reports : y.1.reportsOf id = x.1.reportsOf id

section
variable {stream : StreamPtr} {id : RequestId} {x y z : Trace PeerContext Call}

theorem Spares.refl (x : Trace PeerContext Call) : Spares stream id x x := ⟨rfl, rfl, rfl, rfl⟩

theorem Spares.trans (h : Spares stream id x y) (h' : Spares stream id y z) : Spares stream id x z :=
  ⟨h'.closed.trans h.closed, h'.stream.trans h.stream, h'.asked.trans h.asked, h'.reports.trans h.reports⟩

theorem Spares.of_silent {t : PeerContext} (h : Silent x.1 t) (calls : List Call) : Spares stream id x (t, calls) where
  closed := h.closed
  stream := h.streams stream
  asked := congrArg (fun ids => ids.contains id) h.localIds
  reports := congrArg (List.filterMap _) h.reported

theorem spares_rely : Rely (Spares stream id) (Spares stream id) fun _ => True where
  refl := Spares.refl
  trans := Spares.trans
  absorb h := h
  stable _ _ := trivial

/-- Whether the request is open, and what the feedbacks were told. -/
structure Listens (stream : StreamPtr) (id : RequestId) (heard : Bool × List ResponseStatusCode)
    (x : Trace PeerContext Call) : Prop where
  closed : x.1.closed = false
  stream : x.1.streams.contains stream = true
  asked : x.1.localRequestIds.contains id = heard.1
  reports : x.1.reportsOf id = heard.2

theorem Listens.spared {heard : Bool × List ResponseStatusCode} (h : Listens stream id heard x)
    (hxy : Spares stream id x y) : Listens stream id heard y :=
  ⟨hxy.closed.trans h.closed, hxy.stream.trans h.stream, hxy.asked.trans h.asked, hxy.reports.trans h.reports⟩

/-- Programs that listen on, whatever the feedbacks do. -/
abbrev Hears (stream : StreamPtr) (id : RequestId) (heard : Bool × List ResponseStatusCode) {α : Type}
    (p : Action α) (x : Trace PeerContext Call) : Prop :=
  Meets (Spares stream id) (fun _ _ => True) (fun _ y => Listens stream id heard y) (p x.1) x.2

theorem hears_of_keeps {heard : Bool × List ResponseStatusCode} {α : Type} {p : Action α}
    (h : Listens stream id heard x)
    (hp : Keeps (Spares stream id) (Spares stream id) (fun _ _ => True) (fun _ => True) x p) :
    Hears stream id heard p x :=
  (hp trivial).mono fun _ _ hxy => h.spared hxy

theorem keeps_call (c : Call) :
    Keeps (Spares stream id) (Spares stream id) (fun _ _ => True) (fun _ => True) x (Prog.call c) :=
  Keeps.call spares_rely fun _ => ⟨trivial, rfl, rfl, rfl, rfl⟩

/-- What a response does to what is heard. -/
def heardOf (id : RequestId) (heard : Bool × List ResponseStatusCode) (response : Message.Response) :
    Bool × List ResponseStatusCode :=
  if response.id = id then hear isTerminal heard response.status else heard

theorem reportsOf_note (s : PeerContext) (rid : RequestId) (status : ResponseStatusCode) :
    (noteReport rid status s).reportsOf id = s.reportsOf id ++ if rid = id then [status] else [] := by
  rw [reportsOf, noteReport, List.filterMap_append, reportsOf]
  by_cases h : rid = id
  · simp [h]
  · simp [h]

theorem hears_notify {heard : Bool × List ResponseStatusCode} (h : Listens stream id heard x) (rid : RequestId)
    (status : ResponseStatusCode) (extensions : List Extension) :
    Hears stream id (heard.1, heard.2 ++ if rid = id then [status] else []) (notify rid status extensions) x := by
  refine Meets.modify (Meets.get ?_)
  have hnoted : Listens stream id (heard.1, heard.2 ++ if rid = id then [status] else [])
      (noteReport rid status x.1, x.2) :=
    ⟨h.closed, h.stream, h.asked, (reportsOf_note x.1 rid status).trans (congrArg (· ++ _) h.reports)⟩
  exact hears_of_keeps hnoted (Keeps.forM spares_rely fun fb _ y _ => keeps_call _)

/-- A response that is let through. -/
theorem heardOf_asked {heard : Bool × List ResponseStatusCode} {response : Message.Response}
    (h : response.id = id → heard.1 = true) :
    heardOf id heard response =
      (if response.id = id ∧ isTerminal response.status = true then false else heard.1,
        heard.2 ++ if response.id = id then [response.status] else []) := by
  unfold heardOf
  by_cases hid : response.id = id
  · rw [if_pos hid, if_pos hid, hear, if_pos (h hid)]
    cases isTerminal response.status with
    | true => rw [if_pos ⟨hid, rfl⟩, Bool.not_true]
    | false => rw [if_neg fun hc => Bool.false_ne_true hc.2, h hid, Bool.not_false]
  · rw [if_neg hid, if_neg hid, if_neg fun hc => hid hc.1, List.append_nil]

theorem listens_eraseLocalId {heard : Bool × List ResponseStatusCode} (h : Listens stream id heard x)
    (rid : RequestId) : Listens stream id (if rid = id then false else heard.1, heard.2) (eraseLocalId rid x.1, x.2) := by
  refine ⟨h.closed, h.stream, ?_, h.reports⟩
  show (x.1.localRequestIds.erase rid).contains id = _
  rw [OrdMap.contains_erase, h.asked]
  by_cases hid : rid = id
  · simp [hid]
  · simp [hid, Ne.symm hid]

theorem hears_onResponse {heard : Bool × List ResponseStatusCode} (h : Listens stream id heard x)
    (response : Message.Response) : Hears stream id (heardOf id heard response) (onResponse response) x := by
  refine Meets.get ?_
  by_cases hasked : x.1.localRequestIds.contains response.id = true
  · have hopen : response.id = id → heard.1 = true := by
      intro hid
      rw [← h.asked, ← hid]
      exact hasked
    rw [if_pos hasked, heardOf_asked hopen]
    by_cases hterminal : isTerminal response.status = true
    · simp only [Prog.when, hterminal, and_true]
      exact Meets.modify (hears_notify (listens_eraseLocalId h response.id) response.id response.status _)
    · rw [if_neg fun hc : response.id = id ∧ _ => hterminal hc.2, Prog.when, if_neg hterminal]
      exact hears_notify h response.id response.status _
  · have hother : heardOf id heard response = heard := by
      unfold heardOf
      split_ifs with hid
      · have hgone : heard.1 = false := by
          rw [← h.asked, ← hid]
          exact Bool.eq_false_iff.mpr hasked
        rw [hear, hgone, if_neg Bool.false_ne_true]
      · rfl
    rw [if_neg hasked, hother]
    exact h

/-- The statuses of a request in a list of responses. -/
def statusesOf (id : RequestId) (responses : List Message.Response) : List ResponseStatusCode :=
  responses.filterMap fun r => if r.id = id then some r.status else none

theorem statusesOf_append (responses more : List Message.Response) :
    statusesOf id (responses ++ more) = statusesOf id responses ++ statusesOf id more := List.filterMap_append

theorem foldl_heardOf (heard : Bool × List ResponseStatusCode) (responses : List Message.Response) :
    responses.foldl (heardOf id) heard = (statusesOf id responses).foldl (hear isTerminal) heard := by
  induction responses generalizing heard with
  | nil => rfl
  | cons r responses ih =>
    have hfirst : heardOf id heard r = (statusesOf id [r]).foldl (hear isTerminal) heard := by
      unfold heardOf
      by_cases hid : r.id = id
      · simp [statusesOf, hid]
      · simp [statusesOf, hid]
    rw [List.foldl_cons, hfirst, ih, ← List.foldl_append, ← statusesOf_append, List.singleton_append]

/-- A message without requests. -/
theorem hears_onReaderEvent {heard : Bool × List ResponseStatusCode} (h : Listens stream id heard x) {msg : Message}
    (hlist : msg.completeRequestList = false) (hrequests : msg.requests = []) :
    Hears stream id (msg.responses.foldl (heardOf id) heard) (onReaderEvent stream (some msg)) x := by
  refine Meets.get ?_
  rw [if_pos h.closed]
  simp only
  rw [if_pos h.stream, hlist, hrequests]
  -- no request list to drop and no request to answer
  change Meets _ _ _ ((do
    msg.responses.forM onResponse
    onBlocks msg.data
    Prog.modify (shiftExpireTime stream)) x.1) x.2
  have hresponses : ∀ (responses : List Message.Response) (heard : Bool × List ResponseStatusCode)
      (y : Trace PeerContext Call), Listens stream id heard y →
      Hears stream id (responses.foldl (heardOf id) heard) (responses.forM onResponse) y := by
    intro responses
    induction responses with
    | nil => exact fun _ _ hy => hy
    | cons r responses ih =>
      intro heard y hy
      exact Meets.bind ((hears_onResponse hy r).mono fun _ z hz => ih _ z hz)
  refine Meets.seq ((hresponses msg.responses heard x h).mono fun _ y hy => ?_)
  have hrest : Hears stream id (msg.responses.foldl (heardOf id) heard)
      (do
        onBlocks msg.data
        Prog.modify (shiftExpireTime stream)) y := by
    refine hears_of_keeps hy (Keeps.bind spares_rely ?_ fun _ z _ => ?_)
    · exact keeps_onBlocks spares_rely.logic fun _ _ _ _ => keeps_call _
    · exact Keeps.modify fun _ => .of_silent (Plain.shiftExpireTime z.1 stream).toSilent z.2
  exact hrest

theorem hears_messages {heard : Bool × List ResponseStatusCode} (h : Listens stream id heard x) {msgs : List Message}
    (hplain : ∀ m ∈ msgs, m.completeRequestList = false ∧ m.requests = []) :
    Hears stream id ((statusesOf id (msgs.flatMap Message.responses)).foldl (hear isTerminal) heard)
      (msgs.forM fun m => onReaderEvent stream (some m)) x := by
  induction msgs generalizing heard x with
  | nil => exact h
  | cons m msgs ih =>
    obtain ⟨⟨hlist, hrequests⟩, hmsgs⟩ := List.forall_mem_cons.mp hplain
    refine Meets.bind ((hears_onReaderEvent h hlist hrequests).mono fun _ y hy => ?_)
    rw [foldl_heardOf] at hy
    rw [List.flatMap_cons, statusesOf_append, List.foldl_append]
    exact ih hy hmsgs

end

/-! ## From one end to the other -/

section
variable {H : Hasher} {id : RequestId}

/-- The statuses of a request among what the endpoint was given. -/
def answersTo (id : RequestId) (entries : List Added) : List ResponseStatusCode :=
  statusesOf id (entries.filterMap Added.sentResponse)

/-- The blocks that have no response yet are no answer. -/
theorem answersTo_append_blocks {blocks : List Added} (h : ∀ b ∈ blocks, b.isResponse = false) (entries : List Added) :
    answersTo id (entries ++ blocks) = answersTo id entries := by
  have hnone : blocks.filterMap Added.sentResponse = [] := by
    refine List.filterMap_eq_nil_iff.mpr fun b hb => ?_
    cases b with
    | response => cases h _ hb
    | request | cancel | block => rfl
  rw [answersTo, List.filterMap_append, hnone, List.append_nil]
  rfl

open InboundEndpoint in
/-- The messages of an endpoint are heard up to the first terminal status. -/
theorem hears_account {a : Account} (hsound : a.Sound) {stream : StreamPtr} {x : Trace PeerContext Call}
    (h : Listens stream id (true, x.1.reportsOf id) x) :
    Meets (Spares stream id) (fun _ _ => True)
      (fun _ y => y.1.reportsOf id = x.1.reportsOf id ++ upTo isTerminal (answersTo id a.entries))
      (((a.messages.ended.map sentMessage).forM fun m => onReaderEvent stream (some m)) x.1) x.2 := by
  have hanswers : statusesOf id ((a.messages.ended.map sentMessage).flatMap Message.responses) =
      answersTo id a.entries := by
    have hblocks : ∀ b ∈ a.messages.pending, b.isResponse = false := (batched_shape Added.isResponse a.entries).2
    rw [← a.messages_flatten, answersTo_append_blocks hblocks, answersTo, List.filterMap_flatten, List.flatMap_map,
      List.flatMap_def]
    rfl
  refine (hears_messages h hsound.plain).mono fun _ y hy => ?_
  rw [hy.reports, foldl_hear, hanswers]

open InboundEndpoint in
/-- **The first terminal status is the last that is heard**: when the endpoint of the responder has refused nothing,
the requester that reads its messages is told the statuses of its request up to the first terminal one, which
`RS_PARTIAL_CONTENT` is, whatever the endpoint was given for others and whatever the feedbacks do beside. -/
theorem first_terminal_heard {responder requester : StreamPtr} {ops : List InboundEndpoint.Op}
    (hok : ∀ entry ∈ (Account.run responder ops).entries, entry.Ok H)
    (hsmall : ∀ m ∈ (Account.run responder ops).messages.ended,
      (MessageBuilder.built m).getSerializedSize ≤ kMaxMessageSize)
    (hnone : (Account.run responder ops).failed = false) {x : Trace PeerContext Call} (hopen : x.1.closed = false)
    (hstream : x.1.streams.contains requester = true) (hasked : x.1.localRequestIds.contains id = true) :
    ∃ msgs : List Message,
      (Account.run responder ops).endpoint.enqueued.map (Transport.opened H) = msgs.map some ∧
      Meets (Spares requester id) (fun _ _ => True)
        (fun _ y => y.1.reportsOf id =
          x.1.reportsOf id ++ upTo isTerminal (answersTo id (Account.run responder ops).entries))
        ((msgs.forM fun m => onReaderEvent requester (some m)) x.1) x.2 := by
  set a := Account.run responder ops with ha
  have hsound : a.Sound := sound_run responder ops
  exact ⟨a.messages.ended.map sentMessage, hsound.opened_enqueued hok hsmall hnone,
    hears_account hsound ⟨hopen, hstream, hasked, rfl⟩⟩

/-- A block, a status that is not terminal, and two that are. -/
def answeredOps : List InboundEndpoint.Op :=
  [.addBlockToResponse false 1 sampleCid [], .sendResponse false 1 .partialResponse [],
    .sendResponse false 1 .fullContent [], .sendResponse false 1 .notFound []]

/-- Request 1 has been made over stream 5. -/
def askingContext : PeerContext :=
  { create 9 [0] ⟨fun _ => false, 0⟩ with
      localRequestIds := OrdMap.empty.insert 1 ()
      streams := OrdMap.empty.insert 5 .initial }

open InboundEndpoint in
theorem full_content_is_last_heard :
    ∃ msgs : List Message,
      (Account.run 0 answeredOps).endpoint.enqueued.map (Transport.opened emptyHasher) = msgs.map some ∧
      Meets (Spares 5 1) (fun _ _ => True)
        (fun _ y => y.1.reportsOf 1 =
          askingContext.reportsOf 1 ++ upTo isTerminal (answersTo 1 (Account.run 0 answeredOps).entries))
        ((msgs.forM fun m => onReaderEvent 5 (some m)) askingContext) [] := by
  have hentries : (Account.run 0 answeredOps).entries =
      [.block sampleCid [], .response 1 .partialResponse [], .response 1 .fullContent [], .response 1 .notFound []] := by
    decide +kernel
  refine first_terminal_heard (x := (askingContext, [])) ?_ ?_ ?_ rfl ?_ ?_
  · rw [hentries]
    simp only [List.forall_mem_cons, List.not_mem_nil, false_implies, implies_true, and_true, Added.Ok, Added.Named]
    decide +kernel
  · decide +kernel
  · decide +kernel
  · decide +kernel
  · decide +kernel

end
end IpfsLite.Graphsync.PeerContext
