import IpfsLite.Graphsync.RequestAccounting

/-! # The peer's requests

A request of the peer is entered twice: `remote_requests_streams_` says which stream it came
through, and the stream lists its requests. A cancel is taken off the map and off the list of the
stream on which it comes, whichever stream the request came through. -/
namespace IpfsLite.Graphsync.PeerContext
set_option autoImplicit false

open Reentrant

/-- The stream is open and lists the request. -/
def lists (s : PeerContext) (stream : StreamPtr) (id : RequestId) : Bool :=
  match s.streams.find? stream with
  | none => false
  | some ctx => ctx.remoteRequestIds.contains id

/-- Both tables say the same of every request. -/
def Agreed (s : PeerContext) : Prop :=
  ∀ (id : RequestId) (stream : StreamPtr),
    s.remoteRequestsStreams.find? id = some stream ↔ s.lists stream id = true

/-- What a stream leaves behind when it is closed. -/
def withoutStream (stream : StreamPtr) (s : PeerContext) : PeerContext :=
  { s.dropRemoteRequests stream with streams := s.streams.erase stream }

section
variable {s t : PeerContext} {calls more : List Call} {x y z : Trace PeerContext Call}
  {stream : StreamPtr}

/-! ## Steps of the tables -/

theorem lists_eq (s : PeerContext) (stream : StreamPtr) (id : RequestId) :
    s.lists stream id = (s.remoteIds stream).any fun ids => ids.contains id := by
  unfold lists remoteIds
  cases s.streams.find? stream with
  | none => rfl
  | some ctx => rfl

theorem lists_congr {st : StreamPtr} (h : t.remoteIds st = s.remoteIds st) (id : RequestId) :
    t.lists st id = s.lists st id := by
  rw [lists_eq, lists_eq, h]

/-- A table in which one stream has got another list. -/
theorem lists_insert {ctx : StreamCtx} (h : t.streams = s.streams.insert stream ctx) (st : StreamPtr)
    (id : RequestId) :
    t.lists st id = if st = stream then ctx.remoteRequestIds.contains id else s.lists st id := by
  simp only [lists, h, OrdMap.find?_insert]
  by_cases hst : st = stream
  · simp only [if_pos hst]
  · simp only [if_neg hst]

theorem lists_of_find? {ctx : StreamCtx} (h : s.streams.find? stream = some ctx) (id : RequestId) :
    s.lists stream id = ctx.remoteRequestIds.contains id := by
  unfold lists
  rw [h]

theorem dropRemoteRequests_find? (s : PeerContext) (stream : StreamPtr) (id : RequestId) :
    (s.dropRemoteRequests stream).remoteRequestsStreams.find? id =
      if s.lists stream id = true then none else s.remoteRequestsStreams.find? id := by
  unfold dropRemoteRequests lists
  cases s.streams.find? stream with
  | none => rfl
  | some ctx =>
    show (ctx.remoteRequestIds.keys.foldl (fun m id => m.erase id) s.remoteRequestsStreams).find? id =
      if ctx.remoteRequestIds.contains id = true then none else s.remoteRequestsStreams.find? id
    simp only [OrdMap.find?_foldl_erase, OrdMap.mem_keys_iff]
    rfl

theorem dropRemoteRequests_lists (s : PeerContext) (stream st : StreamPtr) (id : RequestId) :
    (s.dropRemoteRequests stream).lists st id = (!decide (st = stream) && s.lists st id) := by
  unfold dropRemoteRequests
  by_cases hst : st = stream
  · subst hst
    cases hfind : s.streams.find? st with
    | none => simp [lists, hfind]
    | some ctx => simp [lists, hfind]
  · cases s.streams.find? stream with
    | none => simp [hst]
    | some ctx => simp [lists, hst]

theorem withoutStream_lists (s : PeerContext) (stream st : StreamPtr) (id : RequestId) :
    (s.withoutStream stream).lists st id = (!decide (st = stream) && s.lists st id) := by
  unfold withoutStream lists
  by_cases hst : st = stream
  · simp [hst]
  · simp [hst]

/-- Dropping all the requests of one stream. -/
theorem Agreed.drop (h : s.Agreed)
    (hfind : ∀ id, t.remoteRequestsStreams.find? id =
      if s.lists stream id = true then none else s.remoteRequestsStreams.find? id)
    (hlists : ∀ st id, t.lists st id = (!decide (st = stream) && s.lists st id)) : t.Agreed := by
  intro id st
  rw [hfind, hlists, Bool.and_eq_true, Bool.not_eq_true', decide_eq_false_iff_not]
  by_cases hin : s.lists stream id = true
  · rw [if_pos hin]
    refine ⟨fun hnone => (by cases hnone), fun ⟨hne, hst⟩ => absurd ?_ hne⟩
    exact Option.some.inj (((h id st).mpr hst).symm.trans ((h id stream).mpr hin))
  · rw [if_neg hin, h id st]
    refine ⟨fun hst => ⟨?_, hst⟩, fun ⟨_, hst⟩ => hst⟩
    rintro rfl
    exact hin hst

theorem Agreed.of_same (h : s.Agreed) (hremote : t.remoteRequestsStreams = s.remoteRequestsStreams)
    (hlists : ∀ st id, t.lists st id = s.lists st id) : t.Agreed := fun id st => by
  rw [hremote, hlists]
  exact h id st

/-- A request that is in no table is entered in both. -/
theorem Agreed.acceptRequest (h : s.Agreed) {ctx : StreamCtx} (hfind : s.streams.find? stream = some ctx)
    {id : RequestId} (hnew : s.remoteRequestsStreams.contains id = false) :
    (s.acceptRequest stream ctx id).Agreed := by
  intro id' st
  have hnone : s.remoteRequestsStreams.find? id = none := by
    rw [← Option.not_isSome_iff_eq_none]
    exact Bool.eq_false_iff.mp hnew
  rw [lists_insert (s := s) rfl, PeerContext.acceptRequest, OrdMap.find?_insert, OrdMap.contains_insert,
    ← lists_of_find? hfind]
  by_cases hid : id' = id
  · have hunlisted : s.lists st id' = false := by
      rw [← Bool.not_eq_true, ← h id' st, hid, hnone]
      exact fun hsome => by cases hsome
    by_cases hst : st = stream
    · simp [hid, hst]
    · simp only [if_pos hid, if_neg hst, hunlisted, Option.some.injEq, Bool.false_eq_true, iff_false]
      exact fun heq => hst heq.symm
  · by_cases hst : st = stream
    · simp [hid, hst, h id' stream]
    · simp [hid, hst, h id' st]

/-- A cancel on the stream of the request. -/
theorem Agreed.cancel (h : s.Agreed) {ctx : StreamCtx} (hfind : s.streams.find? stream = some ctx)
    {id : RequestId} (howner : ∀ st, s.remoteRequestsStreams.find? id = some st → st = stream)
    (hremote : t.remoteRequestsStreams = s.remoteRequestsStreams.erase id)
    (hstreams : t.streams = s.streams.insert stream
      { ctx with remoteRequestIds := ctx.remoteRequestIds.erase id }) : t.Agreed := by
  intro id' st
  rw [lists_insert hstreams, hremote, OrdMap.find?_erase, OrdMap.contains_erase, ← lists_of_find? hfind]
  by_cases hid : id' = id
  · have hunlisted : st ≠ stream → s.lists st id' = false := fun hst => by
      rw [← Bool.not_eq_true, ← h id' st, hid]
      exact fun hsome => hst (howner st hsome)
    by_cases hst : st = stream
    · simp [hid, hst]
    · simp [hid, hst, hid ▸ hunlisted hst]
  · by_cases hst : st = stream
    · simp [hid, hst, h id' stream]
    · simp [hid, hst, h id' st]

/-! ## While a feedback is being called -/

/-- A closed context takes no request and forgets none, and an open one takes none. -/
structure TablesRely (x y : Trace PeerContext Call) : Prop where
  closed : x.1.closed = true → y.1.closed = true ∧
    y.1.remoteRequestsStreams = x.1.remoteRequestsStreams ∧ ∀ st, y.1.remoteIds st = x.1.remoteIds st
  agreed : x.1.Agreed → y.1.Agreed
  fewer {id : RequestId} {st : StreamPtr} :
    y.1.remoteRequestsStreams.find? id = some st → x.1.remoteRequestsStreams.find? id = some st

/-- While the context is being closed the map is empty and the streams still list their requests. -/
def Fit (s : PeerContext) : Prop := s.Agreed ∨ s.closed = true ∧ s.remoteRequestsStreams = .empty

theorem TablesRely.trans (h : TablesRely x y) (h' : TablesRely y z) : TablesRely x z where
  closed hc := by
    obtain ⟨hy, hremote, hids⟩ := h.closed hc
    obtain ⟨hz, hremote', hids'⟩ := h'.closed hy
    exact ⟨hz, hremote'.trans hremote, fun st => (hids' st).trans (hids st)⟩
  agreed ha := h'.agreed (h.agreed ha)
  fewer hf := h.fewer (h'.fewer hf)

/-- Steps that leave the tables alone. -/
theorem TablesRely.of_same (hclosed : t.closed = s.closed)
    (hremote : t.remoteRequestsStreams = s.remoteRequestsStreams)
    (hids : ∀ st, t.remoteIds st = s.remoteIds st) : TablesRely (s, calls) (t, more) where
  closed hc := ⟨hclosed.trans hc, hremote, hids⟩
  agreed ha := ha.of_same hremote fun st id => lists_congr (hids st) id
  fewer hf := hremote ▸ hf

theorem TablesRely.of_rfl (hclosed : t.closed = s.closed)
    (hremote : t.remoteRequestsStreams = s.remoteRequestsStreams) (hstreams : t.streams = s.streams) :
    TablesRely (s, calls) (t, more) :=
  .of_same hclosed hremote fun st => by
    rw [remoteIds, hstreams]
    rfl

theorem TablesRely.of_plain (h : Plain s t) : TablesRely (s, calls) (t, calls) :=
  .of_same h.closed h.remote h.remoteIds

theorem Fit.moved (h : Fit x.1) (hxy : TablesRely x y) : Fit y.1 := by
  rcases h with ha | ⟨hc, hempty⟩
  · exact .inl (hxy.agreed ha)
  · obtain ⟨hy, hremote, -⟩ := hxy.closed hc
    exact .inr ⟨hy, hremote.trans hempty⟩

theorem tables_rely : Rely TablesRely TablesRely fun x => Fit x.1 where
  refl _ := .of_rfl rfl rfl rfl
  trans := TablesRely.trans
  absorb h := h
  stable := Fit.moved

/-- Programs that may run while a feedback is being called. -/
abbrev TablesKeep (x : Trace PeerContext Call) {α : Type} (p : Action α) : Prop :=
  Keeps TablesRely TablesRely (fun _ y => Fit y.1) (fun x => Fit x.1) x p

theorem tables_logic : Logic (fun x p => TablesKeep x p) TablesRely
    fun x t => Fit x.1 → TablesRely x (t, x.2) := tables_rely.logic

theorem tables_call (c : Call) : TablesKeep x (Prog.call c) :=
  Keeps.call tables_rely fun hx => ⟨hx, .of_rfl rfl rfl rfl⟩

theorem tables_notify (id : RequestId) (status : ResponseStatusCode) (extensions : List Extension) :
    TablesKeep x (notify id status extensions) :=
  keeps_notify tables_logic (fun _ => .of_rfl rfl rfl rfl) fun _ _ => tables_call _

theorem tables_closeLocalRequests (status : ResponseStatusCode) :
    TablesKeep x (closeLocalRequests status) :=
  keeps_closeLocalRequests tables_logic (fun _ => .of_rfl rfl rfl rfl)
    (fun _ id => tables_notify id status []) fun _ _ => .of_rfl rfl rfl rfl

/-! ## Closing -/

/-- The context is marked as closed, and only these streams are left. -/
structure Unwinding (left : List StreamPtr) (s : PeerContext) : Prop where
  closed : s.closed = true
  remote : s.remoteRequestsStreams = .empty
  left (st : StreamPtr) : (s.remoteIds st).isSome = true → st ∈ left

theorem Unwinding.moved {left : List StreamPtr} (h : Unwinding left x.1) (hxy : TablesRely x y) :
    Unwinding left y.1 := by
  obtain ⟨hc, hremote, hids⟩ := hxy.closed h.closed
  exact ⟨hc, hremote.trans h.remote, fun st hst => h.left st (hids st ▸ hst)⟩

theorem Unwinding.fit {left : List StreamPtr} (h : Unwinding left s) : Fit s := .inr ⟨h.closed, h.remote⟩

theorem Unwinding.agreed (h : Unwinding [] s) : s.Agreed := by
  intro id st
  have hnone : s.remoteIds st = none := by
    rw [← Option.not_isSome_iff_eq_none]
    exact fun hst => List.not_mem_nil (h.left st hst)
  rw [h.remote, OrdMap.find?_empty, lists_eq, hnone]
  exact ⟨fun hsome => (by cases hsome), fun hsome => (by cases hsome)⟩

theorem Unwinding.withoutStream {left : List StreamPtr} (h : Unwinding (stream :: left) s) :
    Unwinding left (s.withoutStream stream) := by
  have hdrop := Silent.dropRemoteRequests s stream
  refine ⟨hdrop.closed.trans h.closed, OrdMap.ext_find? fun id => ?_, fun st hst => ?_⟩
  · refine (dropRemoteRequests_find? s stream id).trans ?_
    rw [h.remote]
    split <;> rfl
  · simp only [remoteIds, PeerContext.withoutStream, OrdMap.find?_erase] at hst
    by_cases hne : st = stream
    · rw [if_pos hne] at hst
      cases hst
    · rw [if_neg hne] at hst
      exact (List.mem_cons.mp (h.left st hst)).resolve_left hne

theorem unwinding_removeStream {left : List StreamPtr} (h : Unwinding (stream :: left) x.1)
    (status : ResponseStatusCode) :
    Meets TablesRely (fun _ y => Fit y.1) (fun _ z => Unwinding left z.1) (removeStream stream status x.1)
      x.2 := by
  refine Meets.get (Meets.ite (fun _ => Meets.modify ?_) fun hout => ?_)
  · have hafter : Unwinding left (x.1.withoutStream stream) := h.withoutStream
    refine Meets.ite (fun _ => ?_) fun _ => hafter
    have hclose : TablesKeep (x.1.withoutStream stream, x.2) (closeLocalRequests status) :=
      tables_closeLocalRequests status
    exact (hclose hafter.fit).mono fun _ z hz => hafter.moved hz
  · refine ⟨h.closed, h.remote, fun st hst => (List.mem_cons.mp (h.left st hst)).resolve_left ?_⟩
    rintro rfl
    rw [remoteIds, Option.isSome_map] at hst
    exact hout hst

theorem tables_close (status : ResponseStatusCode) : TablesKeep x (close status) := by
  refine Keeps.get (Keeps.ite (fun hopen => ?_) fun _ => Keeps.pure tables_rely ())
  intro hfit
  have hagreed : x.1.Agreed := hfit.resolve_right fun hc => by
    rw [hopen] at hc
    exact Bool.false_ne_true hc.1
  have hstart : Unwinding x.1.streams.keys
      { x.1 with closeStatus := status, closed := true, remoteRequestsStreams := .empty } :=
    ⟨rfl, rfl, fun st hst => (OrdMap.mem_keys_iff _ st).mpr (by rwa [remoteIds, Option.isSome_map] at hst)⟩
  refine Meets.modify (Meets.seq ((Meets.forM (I := fun left y => Unwinding left y.1)
    (Q := fun y => Unwinding [] y.1) (fun st left y hy => unwinding_removeStream hy status)
    (fun _ hy => hy) x.1.streams.keys (_, x.2) hstart).mono fun _ y hy => ?_))
  have hend : TablesKeep y (do
      let s ← Prog.get
      Prog.when s.requestsEndpoint.isSome (closeLocalRequests status)
      if status ≠ .rejectedLocally then Prog.modify fun s => { s with timer := .peerClosed }
      else Prog.call (.peerClosed .rejectedLocally)) := by
    refine Keeps.get (Keeps.bind tables_rely (Keeps.when tables_rely fun _ =>
      tables_closeLocalRequests status) fun _ z _ => Keeps.ite (fun _ => ?_) fun _ => tables_call _)
    exact Keeps.modify fun _ => .of_rfl rfl rfl rfl
  refine (hend hy.fit).mono fun _ z hz => ?_
  have hz' := hy.moved hz
  refine ⟨fun hc => ?_, fun _ => hz'.agreed, fun {id st} hf => ?_⟩
  · rw [hopen] at hc
    cases hc
  · rw [hz'.remote] at hf
    cases hf

theorem tables_rules : WriteRules (fun x p => TablesKeep x p) TablesRely
    fun x t => Fit x.1 → TablesRely x (t, x.2) where
  toLogic := tables_logic
  plain h _ := .of_plain h
  close _ := tables_close _

theorem needToConnect_tables (s : PeerContext) : TablesRely (s, calls) (s.needToConnect.1, calls) := by
  unfold needToConnect
  cases s.requestsEndpoint with
  | some ep => exact .of_rfl rfl rfl rfl
  | none =>
    cases hstreams : s.streams.entries with
    | nil => exact .of_rfl rfl rfl rfl
    | cons e rest =>
      obtain ⟨st, ctx⟩ := e
      have hfind : s.streams.find? st = some ctx := by
        rw [OrdMap.find?_some_iff, hstreams]
        exact List.mem_cons_self
      have hcreate := Plain.createMessageQueue s st ctx
      obtain ⟨hids, hsame⟩ := createMessageQueue_ids s st ctx
      have hset := hcreate.trans (Plain.setStream (hsame ▸ hfind) hids)
      exact .of_same hset.closed hset.remote hset.remoteIds

/-- What the network may start while a feedback is being called. -/
theorem tables_reentrant {o : Op} (ho : o.reentrant = true) : TablesKeep x (op o) := by
  cases o with
  | needToConnect => exact Keeps.modify fun _ => needToConnect_tables x.1
  | enqueueRequest id body =>
    exact keeps_enqueueRequest tables_rules body (fun _ => .of_rfl rfl rfl rfl)
      (fun _ => tables_notify _ _ _) fun _ _ => .of_rfl rfl rfl rfl
  | cancelRequest id body =>
    exact keeps_cancelRequest tables_rules body (fun _ => .of_rfl rfl rfl rfl) fun _ _ => .of_rfl rfl rfl rfl
  | close status => exact tables_close status
  | setOutboundAddress _ | addBlockToResponse _ _ _ | sendResponse _ _ _ | keepAlive | world _ =>
    exact keeps_op tables_rules rfl rfl
  | _ => cases ho

/-! ## Events -/

/-- What an operation on the stream `stream` does, or one on no stream. -/
structure TablesKept (stream : StreamPtr) (x y : Trace PeerContext Call) : Prop where
  agreed : x.1.Agreed → y.1.Agreed
  fewer {id : RequestId} {st : StreamPtr} : st ≠ stream →
    y.1.remoteRequestsStreams.find? id = some st → x.1.remoteRequestsStreams.find? id = some st

theorem TablesRely.kept (h : TablesRely x y) : TablesKept stream x y := ⟨h.agreed, fun _ hf => h.fewer hf⟩

theorem TablesKept.of_rfl (hclosed : t.closed = s.closed)
    (hremote : t.remoteRequestsStreams = s.remoteRequestsStreams) (hstreams : t.streams = s.streams) :
    TablesKept stream (s, calls) (t, more) :=
  (TablesRely.of_rfl hclosed hremote hstreams).kept

theorem events_rely : Rely TablesRely (TablesKept stream) fun x => x.1.Agreed where
  refl _ := ⟨id, fun _ hf => hf⟩
  trans h h' := ⟨fun ha => h'.agreed (h.agreed ha), fun hst hf => h.fewer hst (h'.fewer hst hf)⟩
  absorb := TablesRely.kept
  stable ha h := h.agreed ha

/-- Programs that the streams and the scheduler start. -/
abbrev TablesKeepTop (stream : StreamPtr) (x : Trace PeerContext Call) {α : Type} (p : Action α) : Prop :=
  Keeps TablesRely (TablesKept stream) (fun _ y => Fit y.1) (fun x => x.1.Agreed) x p

theorem TablesKeep.top {α : Type} {p : Action α} (h : TablesKeep x p) : TablesKeepTop stream x p := fun ha =>
  (h (.inl ha)).mono fun _ _ hy => hy.kept

theorem withoutStream_kept (st : StreamPtr) : TablesKept stream x (x.1.withoutStream st, x.2) where
  agreed ha := ha.drop (dropRemoteRequests_find? x.1 st) (withoutStream_lists x.1 st)
  fewer {id _} _ hf := by
    have hf' := (dropRemoteRequests_find? x.1 st id).symm.trans hf
    split at hf'
    · cases hf'
    · exact hf'

theorem dropRemoteRequests_kept (st : StreamPtr) : TablesKept stream x (x.1.dropRemoteRequests st, x.2) where
  agreed ha := ha.drop (dropRemoteRequests_find? x.1 st) (dropRemoteRequests_lists x.1 st)
  fewer {id _} _ hf := by
    rw [dropRemoteRequests_find?] at hf
    split at hf
    · cases hf
    · exact hf

theorem events_rules : StreamRules (fun x p => TablesKeepTop stream x p) (TablesKept stream)
    fun x t => x.1.Agreed → TablesKept stream x (t, x.2) where
  toLogic := events_rely.logic
  plain h _ := (TablesRely.of_plain h).kept
  close _ := (tables_close _).top
  quiet _ := (tables_call _).top
  removeStream st _ _ := keeps_removeStream events_rely.logic (fun _ _ => withoutStream_kept st) fun _ =>
    (tables_closeLocalRequests _).top

/-- The stream that is added lists no request. -/
theorem finishStreamConfig_kept (st : StreamPtr) : TablesKeepTop stream x (finishStreamConfig st) := by
  refine keeps_finishStreamConfig events_rules.toWriteRules
    (fun _ _ _ => .of_rfl rfl rfl rfl) fun y queue ha => ⟨fun _ => ?_, fun _ hf => hf⟩
  refine ha.of_same rfl fun st' id => ?_
  simp only [lists, OrdMap.find?_emplace]
  by_cases hst : st' = st
  · subst hst
    cases y.1.streams.find? st' with
    | none => simp [StreamCtx.initial]
    | some ctx => simp
  · simp only [if_neg hst]

/-! ## Messages -/

/-- A cancel comes on the stream of the request, if there is such a request. -/
def CancelsOwn (s : PeerContext) (stream : StreamPtr) (request : Message.Request) : Prop :=
  request.cancel = true →
    ∀ st, s.remoteRequestsStreams.find? request.id = some st → st = stream

instance (s : PeerContext) (stream : StreamPtr) (request : Message.Request) :
    Decidable (CancelsOwn s stream request) :=
  decidable_of_iff (request.cancel = true →
      (s.remoteRequestsStreams.find? request.id).all (fun st => st = stream) = true) (by
    simp [CancelsOwn, Option.all_eq_true])

theorem onRequest_kept {request : Message.Request} (hown : CancelsOwn x.1 stream request) :
    TablesKeepTop stream x (onRequest stream request) := by
  refine keeps_onRequest events_rules.toWriteRules (fun ctx hcancel hfind ha => ⟨fun _ => ?_, fun _ hf => ?_⟩)
    (fun y ctx hfind hnew ha => ⟨fun _ => ha.acceptRequest hfind hnew, fun hst hf => ?_⟩)
    fun _ _ => (tables_call _).top
  · exact ha.cancel hfind (hown hcancel) rfl rfl
  · rw [OrdMap.find?_erase] at hf
    split at hf
    · cases hf
    · exact hf
  · rw [acceptRequest, OrdMap.find?_insert] at hf
    split at hf
    · exact absurd (Option.some.inj hf).symm hst
    · exact hf

theorem onReaderEvent_kept {msg : Option Message}
    (hown : x.1.streams.contains stream = true →
      ∀ m ∈ msg, ∀ item ∈ m.requests, CancelsOwn x.1 stream item) :
    TablesKeepTop stream x (onReaderEvent stream msg) := by
  refine keeps_onReaderEvent events_rules (fun _ => dropRemoteRequests_kept stream)
    (fun hin m hm item hitem y hxy => onRequest_kept fun hcancel st hst => ?_) fun y item => ?_
  · by_contra hne
    exact hne (hown hin m hm item hitem hcancel st (hxy.fewer hne hst))
  · exact keeps_onResponse events_rules.toLogic (fun _ => .of_rfl rfl rfl rfl) fun _ =>
      (tables_notify _ _ _).top

/-! ## Runs -/

/-- The messages of open streams whose cancels come on the streams of their requests. -/
def CancelsOwnMove (c : Config PeerContext Call) : Move Op → Prop
  | .invoke (.readerEvent stream (some msg)) =>
    c.state.streams.contains stream = true → ∀ item ∈ msg.requests, CancelsOwn c.state stream item
  | _ => True

instance (c : Config PeerContext Call) (m : Move Op) : Decidable (CancelsOwnMove c m) :=
  match m with
  | .invoke (.readerEvent stream (some msg)) => inferInstanceAs (Decidable
      (c.state.streams.contains stream = true → ∀ item ∈ msg.requests, CancelsOwn c.state stream item))
  | .invoke (.readerEvent _ none) | .invoke .needToConnect | .invoke (.enqueueRequest _ _)
  | .invoke (.windowAdjusted _ _) | .invoke (.setOutboundAddress _) | .invoke (.cancelRequest _ _)
  | .invoke (.addBlockToResponse _ _ _) | .invoke (.sendResponse _ _ _) | .invoke .keepAlive
  | .invoke (.close _) | .invoke (.streamConnected _) | .invoke (.streamAccepted _)
  | .invoke (.messageWritten _ _) | .invoke .timer | .invoke (.world _) | .ret => inferInstanceAs (Decidable True)

/-- One case for each operation that may start at top level. -/
theorem tables_top {o : Op} {c : Config PeerContext Call} (hx : x = (c.state, c.calls))
    (hok : CancelsOwnMove c (.invoke o)) : ∃ stream, TablesKeepTop stream x (op o) := by
  subst hx
  cases o with
  | windowAdjusted stream result =>
    exact ⟨stream, keeps_onWindowAdjusted events_rules.toWriteRules fun _ _ => finishStreamConfig_kept stream⟩
  | readerEvent stream msg =>
    refine ⟨stream, onReaderEvent_kept fun hin m hm item hitem => ?_⟩
    cases hm
    exact hok hin item hitem
  | timer => exact ⟨0, keeps_onTimer events_rules⟩
  | streamConnected rstream => exact ⟨0, keeps_op events_rules.toWriteRules rfl rfl⟩
  | streamAccepted stream => exact ⟨0, keeps_op events_rules.toWriteRules rfl rfl⟩
  | messageWritten stream res => exact ⟨0, keeps_op events_rules.toWriteRules rfl rfl⟩
  | _ => exact ⟨0, (tables_reentrant rfl).top⟩

/-- What holds while these calls are pending. -/
def Tabled (stack : List Call) (x : Trace PeerContext Call) : Prop := Fit x.1 ∧ (stack = [] → x.1.Agreed)

theorem tabled_of_run {peer : PeerId} {feedbacks : List InstanceId} {world : World}
    {ms : List (Move Op)} {c : Config PeerContext Call}
    (hok : Runs.EveryStep step CancelsOwnMove (Config.start (create peer feedbacks world)) ms)
    (hr : Runs.run step (Config.start (create peer feedbacks world)) ms = some c) :
    Tabled c.pending (c.state, c.calls) := by
  have hagreed : (create peer feedbacks world).Agreed := fun id st =>
    ⟨fun h => (by cases h), fun h => (by cases h)⟩
  have hsound := Sound.run (R := TablesRely) (V := Tabled) tables_rely.refl (fun _ _ _ => TablesRely.trans)
    (fun _ _ _ hx hxy => ⟨hx.1.moved hxy, fun hst => hxy.agreed (hx.2 hst)⟩)
    (fun c o ho hen hV => ?_) (.start ⟨.inl hagreed, fun _ => hagreed⟩) hok hr
  · exact hsound.valid
  · have hcalls (d : Call) (y : Trace PeerContext Call) (hy : Fit y.1) : Tabled (d :: c.pending) y :=
      ⟨hy, fun hst => absurd hst (List.cons_ne_nil d _)⟩
    cases hst : c.pending with
    | nil =>
      obtain ⟨stream, hkeeps⟩ := tables_top rfl ho
      exact (hkeeps (hV.2 hst)).weaken (fun d y hy => hst ▸ hcalls d y hy) fun _ y hy =>
        ⟨.inl (hy.agreed (hV.2 hst)), fun _ => hy.agreed (hV.2 hst)⟩
    | cons d rest =>
      have hre : o.reentrant = true := by
        rw [hst] at hen
        simpa [enabled] using hen
      have hkeeps : TablesKeep (c.state, c.calls) (op o) := tables_reentrant hre
      exact (hkeeps hV.1).weaken (fun d' y hy => hst ▸ hcalls d' y hy) fun _ _ hy => hy

/-- A response to a request of another stream still finds its way. -/
theorem Agreed.findResponseSink (h : s.Agreed) {id : RequestId} {st : StreamPtr} {ctx : StreamCtx}
    (hne : st ≠ stream) (hsink : s.findResponseSink id = some (st, ctx)) :
    (s.withoutStream stream).findResponseSink id = some (st, ctx) := by
  obtain ⟨st', hfind, hst⟩ := Option.bind_eq_some_iff.mp hsink
  obtain ⟨ctx', hctx, hpair⟩ := Option.map_eq_some_iff.mp hst
  obtain ⟨rfl, rfl⟩ := Prod.mk.inj hpair
  have hunlisted : ¬s.lists stream id = true := fun hl =>
    hne (Option.some.inj (hfind.symm.trans ((h id stream).mpr hl)))
  have hkept : (s.withoutStream stream).remoteRequestsStreams.find? id = some st' :=
    (dropRemoteRequests_find? s stream id).trans ((if_neg hunlisted).trans hfind)
  have hopen : (s.withoutStream stream).streams.find? st' = some ctx' := by
    rw [withoutStream, OrdMap.find?_erase, if_neg hne, hctx]
  rw [PeerContext.findResponseSink, hkept, Option.bind_some, hopen, Option.map_some]

/-- **The tables of the peer's requests agree** in the runs in which every cancel comes on the stream
of its request: in every state that is reached, but while the context is being closed. So the closing
of a stream takes no request of another stream along. -/
theorem tables_agree {peer : PeerId} {feedbacks : List InstanceId} {world : World}
    {ms : List (Move Op)} {c : Config PeerContext Call}
    (hok : Runs.EveryStep step CancelsOwnMove (Config.start (create peer feedbacks world)) ms)
    (hr : Runs.run step (Config.start (create peer feedbacks world)) ms = some c)
    (hsettled : c.frames = [] ∨ c.state.closed = false) :
    c.state.Agreed ∧ ∀ (stream st : StreamPtr) (id : RequestId) (ctx : StreamCtx), st ≠ stream →
      c.state.findResponseSink id = some (st, ctx) →
      (c.state.withoutStream stream).findResponseSink id = some (st, ctx) := by
  obtain ⟨hfit, htop⟩ := tabled_of_run hok hr
  have hagreed : c.state.Agreed := by
    rcases hsettled with hidle | hopen
    · exact htop (by rw [Config.pending, hidle, List.map_nil])
    · refine hfit.resolve_right fun hc => ?_
      rw [hopen] at hc
      exact Bool.false_ne_true hc.1
  exact ⟨hagreed, fun _ _ _ _ hne hsink => hagreed.findResponseSink hne hsink⟩

/-- Two streams of the peer are open. -/
def twoStreamsRun : List (Move Op) :=
  [.invoke (.streamAccepted 5), .invoke (.windowAdjusted 5 true), .invoke (.streamAccepted 6),
    .invoke (.windowAdjusted 6 true)]

def remoteRequest (id : RequestId) (cancel : Bool) : Message :=
  ⟨false, [{ Message.Request.default with id := id, cancel := cancel }], [], []⟩

def afterRun (ms : List (Move Op)) : Config PeerContext Call :=
  Runs.last step (Config.start (create 0 [] quietWorld)) ms

/-- Both streams bring requests, and one of them is cancelled where it came from. -/
def ownCancelRun : List (Move Op) :=
  twoStreamsRun ++ [.invoke (.readerEvent 5 (some (remoteRequest 1 false))),
    .invoke (.readerEvent 6 (some (remoteRequest 2 false))),
    .invoke (.readerEvent 5 (some (remoteRequest 1 true)))]

theorem own_cancel_agrees : (afterRun ownCancelRun).state.Agreed :=
  (tables_agree (by decide +kernel) (Runs.run_last (by decide +kernel))
    (.inl (List.isEmpty_iff.mp (by decide +kernel)))).1

/-- The cancel comes on the other stream; then the id is used again there, and the first stream ends. -/
def foreignCancelRun : List (Move Op) :=
  twoStreamsRun ++ [.invoke (.readerEvent 5 (some (remoteRequest 1 false))),
    .invoke (.readerEvent 6 (some (remoteRequest 1 true)))]

def reusedIdRun : List (Move Op) :=
  foreignCancelRun ++ [.invoke (.readerEvent 6 (some (remoteRequest 1 false)))]

/-- The stream lists a request that the map has forgotten, and when it ends it takes the new one of
the other stream along. -/
theorem foreign_cancel_disagrees :
    (Runs.run step (Config.start (create 0 [] quietWorld))
        (reusedIdRun ++ [.invoke (.readerEvent 5 none)])).isSome = true ∧
      (afterRun foreignCancelRun).frames.isEmpty = true ∧ ¬(afterRun foreignCancelRun).state.Agreed ∧
      ((afterRun reusedIdRun).state.findResponseSink 1).map Prod.fst = some 6 ∧
      (afterRun (reusedIdRun ++ [.invoke (.readerEvent 5 none)])).state.lists 6 1 = true ∧
      ((afterRun (reusedIdRun ++ [.invoke (.readerEvent 5 none)])).state.findResponseSink 1).isNone = true := by
  have hlists : (afterRun foreignCancelRun).state.lists 5 1 = true := by decide +kernel
  have hfind : (afterRun foreignCancelRun).state.remoteRequestsStreams.find? 1 = none := by decide +kernel
  refine ⟨by decide +kernel, by decide +kernel, fun h => ?_, by decide +kernel⟩
  exact Option.some_ne_none 5 (((h 1 5).mpr hlists).symm.trans hfind)

end
end IpfsLite.Graphsync.PeerContext
