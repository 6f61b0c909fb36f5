import IpfsLite.Graphsync.FeedbackLedger

/-! # No request is lost by a context

For one id: what was asked is answered or outstanding. The account balances through every operation
except an `enqueueRequest` that does not take the request, and it is settled when the context
closes, unless the id was entered behind the back of the closing. -/
namespace IpfsLite.Graphsync.PeerContext
set_option autoImplicit false

open Reentrant

/-! ## When `enqueueRequest` takes the request -/

/-- The stream of the endpoint: `none` without endpoint, `some none` before it is connected. -/
def endpointStream (s : PeerContext) : Option (Option StreamPtr) :=
  s.requestsEndpoint.map OutboundEndpoint.getStream

/-- The endpoint waits for its connection or has a stream that is still open. -/
def EndpointLive (s : PeerContext) : Prop :=
  ∃ o, s.endpointStream = some o ∧ ∀ st ∈ o, s.streams.contains st = true

/-- The stream of the endpoint is gone, and the endpoint will follow. -/
def Doomed (s : PeerContext) : Prop :=
  ∃ st, s.endpointStream = some (some st) ∧ s.streams.contains st = false

/-- The request is taken, and the stream it is written to is still there. -/
def accepts (s : PeerContext) (body : Bytes) : Bool :=
  s.takes body && (s.endpointStream.bind id).all fun st => s.streams.contains st

/-- A new id, and a context that is closed or takes the request; closing is for a reason. -/
def Orderly (s : PeerContext) : Op → Prop
  | .enqueueRequest id body => id ∉ s.requested ∧ (s.closed = true ∨ s.accepts body = true)
  | .close status => isTerminal status = true
  | _ => True

instance (s : PeerContext) (o : Op) : Decidable (s.Orderly o) := by
  cases o <;> unfold Orderly <;> infer_instance

def OrderlyMove (c : Config PeerContext Call) : Move Op → Prop
  | .invoke o => c.state.Orderly o
  | .ret => True

instance (c : Config PeerContext Call) (m : Move Op) : Decidable (OrderlyMove c m) := by
  cases m <;> unfold OrderlyMove <;> infer_instance

theorem EndpointLive.not_doomed {s : PeerContext} (h : s.EndpointLive) : ¬s.Doomed := by
  obtain ⟨o, ho, hlive⟩ := h
  rintro ⟨st, hst, hgone⟩
  rw [ho, Option.some.injEq] at hst
  rw [hlive st (hst ▸ rfl)] at hgone
  cases hgone

theorem accepts_live {s : PeerContext} {body : Bytes} (h : s.accepts body = true) : s.EndpointLive := by
  obtain ⟨htakes, hlive⟩ := Bool.and_eq_true_iff.mp h
  unfold takes at htakes
  cases hep : s.requestsEndpoint with
  | none => simp [hep] at htakes
  | some ep =>
    refine ⟨ep.getStream, by rw [endpointStream, hep]; rfl, fun st hst => ?_⟩
    simpa [endpointStream, hep, Option.mem_def.mp hst] using hlive

/-! ## The account of one id -/

def answered (r : RequestId) (s : PeerContext) : ℕ :=
  s.reported.countP fun e => e.1 = r && isTerminal e.2

def outstanding (r : RequestId) (s : PeerContext) : ℕ := if s.localRequestIds.contains r then 1 else 0

/-- An id that is outstanding was asked for, on a context that can still answer. -/
structure Tidy (r : RequestId) (s : PeerContext) : Prop where
  live : s.localRequestIds.contains r = true → r ∈ s.requested ∧ s.closed = false ∧ s.EndpointLive
  once : s.requested.count r ≤ 1

/-- From `x` to `y` the account has moved by requests asked, answered and outstanding, with `owed`
answers still to come. -/
structure Balanced (r : RequestId) (owed : ℕ) (x y : Trace PeerContext Call) : Prop where
  cancelled : r ∈ x.1.cancelled → r ∈ y.1.cancelled
  balance : r ∉ y.1.cancelled →
    y.1.requested.count r + answered r x.1 + outstanding r x.1 =
      x.1.requested.count r + answered r y.1 + outstanding r y.1 + owed

/-- What an operation as a whole does. -/
structure AccountKept (r : RequestId) (x y : Trace PeerContext Call) : Prop
    extends Balanced r 0 x y where
  closed : x.1.closed = true → y.1.closed = true
  tidy : Tidy r x.1 → Tidy r y.1

/-- While a feedback is being called no stream is added, so what is doomed stays so. -/
structure AccountRely (r : RequestId) (x y : Trace PeerContext Call) : Prop
    extends AccountKept r x y where
  doomed : x.1.Doomed → y.1.Doomed ∨ y.1.closed = true

section
variable {r : RequestId} {x y z : Trace PeerContext Call} {s t : PeerContext} {calls : List Call}

theorem Balanced.refl (x : Trace PeerContext Call) : Balanced r 0 x x := ⟨id, fun _ => rfl⟩

theorem Balanced.trans {m n : ℕ} (h : Balanced r m x y) (h' : Balanced r n y z) :
    Balanced r (m + n) x z where
  cancelled hc := h'.cancelled (h.cancelled hc)
  balance hc := by
    have := h.balance fun hy => hc (h'.cancelled hy)
    have := h'.balance hc
    omega

/-- Steps that change neither the ids nor the reports. -/
theorem Balanced.of_same (hq : y.1.requested = x.1.requested) (hc : y.1.cancelled = x.1.cancelled)
    (hr : y.1.reported = x.1.reported) (hl : y.1.localRequestIds = x.1.localRequestIds) :
    Balanced r 0 x y :=
  ⟨fun h => hc.symm ▸ h, fun _ => by simp only [answered, outstanding, hq, hr, hl]; rfl⟩

theorem Balanced.and_same {n : ℕ} (h : Balanced r n x y) (h' : Balanced r 0 y z) : Balanced r n x z :=
  h.trans h'

theorem AccountKept.refl (x : Trace PeerContext Call) : AccountKept r x x := ⟨.refl x, id, id⟩

theorem AccountKept.trans (h : AccountKept r x y) (h' : AccountKept r y z) : AccountKept r x z where
  toBalanced := h.toBalanced.trans h'.toBalanced
  closed hc := h'.closed (h.closed hc)
  tidy ht := h'.tidy (h.tidy ht)

theorem AccountRely.trans (h : AccountRely r x y) (h' : AccountRely r y z) : AccountRely r x z where
  toAccountKept := h.toAccountKept.trans h'.toAccountKept
  doomed hd := (h.doomed hd).elim h'.doomed fun hc => .inr (h'.closed hc)

theorem account_rely : Rely (AccountRely r) (AccountRely r) fun x => Tidy r x.1 where
  refl x := ⟨AccountKept.refl x, .inl⟩
  trans := AccountRely.trans
  absorb h := h
  stable hx h := h.tidy hx

theorem account_rely_top : Rely (AccountRely r) (AccountKept r) fun x => Tidy r x.1 where
  refl := AccountKept.refl
  trans := AccountKept.trans
  absorb h := h.toAccountKept
  stable hx h := h.tidy hx

theorem Silent.endpointStream (h : Silent s t) : t.endpointStream = s.endpointStream := h.endpoint

theorem Silent.live (h : Silent s t) (hs : s.EndpointLive) : t.EndpointLive := by
  obtain ⟨o, ho, hlive⟩ := hs
  exact ⟨o, h.endpointStream.trans ho, fun st hst => (h.streams st).trans (hlive st hst)⟩

theorem Silent.tidy (h : Silent s t) (hs : Tidy r s) : Tidy r t := by
  refine ⟨fun hr => ?_, h.requested ▸ hs.once⟩
  obtain ⟨hreq, hopen, hlive⟩ := hs.live (h.localIds ▸ hr)
  exact ⟨h.requested ▸ hreq, h.closed.trans hopen, h.live hlive⟩

theorem Silent.balanced (h : Silent s t) : Balanced r 0 (s, calls) (t, calls) :=
  .of_same h.requested h.cancelled h.reported h.localIds

theorem AccountRely.of_silent (h : Silent s t) : AccountRely r (s, calls) (t, calls) where
  toBalanced := h.balanced
  closed hc := h.closed.trans hc
  tidy := h.tidy
  doomed := fun ⟨st, hst, hgone⟩ => .inl ⟨st, h.endpointStream.trans hst, (h.streams st).trans hgone⟩

/-- The calls do not count. -/
theorem AccountRely.of_calls (more : List Call) : AccountRely r (s, calls) (s, more) :=
  ⟨⟨.of_same rfl rfl rfl rfl, id, id⟩, .inl⟩

theorem tidy_of_not_outstanding (hr : s.localRequestIds.contains r = false)
    (hone : s.requested.count r ≤ 1) : Tidy r s := by
  refine ⟨fun h => ?_, hone⟩
  rw [hr] at h
  cases h

theorem contains_eraseLocalId (id : RequestId) (s : PeerContext) :
    (eraseLocalId id s).localRequestIds.contains r =
      (!decide (r = id) && s.localRequestIds.contains r) := OrdMap.contains_erase _ _ _

theorem tidy_eraseLocalId {id : RequestId} (h : Tidy r s) : Tidy r (eraseLocalId id s) := by
  refine ⟨fun hr => h.live ?_, h.once⟩
  rw [contains_eraseLocalId, Bool.and_eq_true] at hr
  exact hr.2

theorem Tidy.settled (h : Tidy r s) (hs : s.Doomed ∨ s.closed = true) :
    s.localRequestIds.contains r = false := by
  rw [← Bool.not_eq_true]
  intro hr
  obtain ⟨-, hopen, hlive⟩ := h.live hr
  rcases hs with hdoom | hclosed
  · exact hlive.not_doomed hdoom
  · rw [hopen] at hclosed
    cases hclosed

/-! ## Reporting -/

/-- Programs that balance the account. -/
abbrev AccountKeeps (r : RequestId) (x : Trace PeerContext Call) {α : Type} (prog : Action α) : Prop :=
  Keeps (AccountRely r) (AccountRely r) (fun _ y => Tidy r y.1) (fun x => Tidy r x.1) x prog

theorem answered_noteReport (id : RequestId) (status : ResponseStatusCode) (s : PeerContext) :
    answered r (noteReport id status s) =
      answered r s + if id = r ∧ isTerminal status = true then 1 else 0 := by
  simp [answered, noteReport, List.countP_append]

/-- A terminal report is an answer that is owed until it is taken from the table. -/
theorem balanced_noteReport {id : RequestId} {status : ResponseStatusCode}
    (hs : isTerminal status = true) {owed : ℕ}
    (h : Balanced r (owed + if id = r then 1 else 0) x y) :
    Balanced r owed x (noteReport id status y.1, y.2) where
  cancelled := h.cancelled
  balance hc := by
    have hy := h.balance hc
    have hreq : (noteReport id status y.1).requested.count r = y.1.requested.count r := rfl
    have hout : outstanding r (noteReport id status y.1) = outstanding r y.1 := rfl
    simp only [hreq, hout, answered_noteReport, hs, and_true]
    omega

theorem tidy_noteReport (id : RequestId) (status : ResponseStatusCode) (h : Tidy r s) :
    Tidy r (noteReport id status s) := ⟨h.live, h.once⟩

/-- After the report is noted, only what the feedbacks do is left. -/
theorem account_notify (id : RequestId) (status : ResponseStatusCode) (extensions : List Extension)
    (ht : Tidy r x.1) :
    Meets (AccountRely r) (fun _ y => Tidy r y.1)
      (fun _ z => AccountRely r (noteReport id status x.1, x.2) z) (notify id status extensions x.1)
      x.2 := by
  have htell : AccountKeeps r (noteReport id status x.1, x.2)
      (x.1.graphsyncFeedbacks.forM fun fb => Prog.call (.onResponse fb id status extensions)) :=
    Keeps.forM account_rely fun _ _ _ _ =>
      Keeps.call account_rely fun hy => ⟨hy, AccountRely.of_calls _⟩
  exact htell (tidy_noteReport id status ht)

/-! ## Closing -/

/-- The table is emptied before the first report; what is still to be reported is `left`. -/
structure Closing (r : RequestId) (x : Trace PeerContext Call) (left : List RequestId)
    (y : Trace PeerContext Call) : Prop extends Balanced r (left.count r) x y where
  closed : x.1.closed = true → y.1.closed = true
  tidy : Tidy r y.1
  final : y.1.Doomed ∨ y.1.closed = true

theorem Closing.step {status : ResponseStatusCode} (hs : isTerminal status = true) {id : RequestId}
    {left : List RequestId} (h : Closing r x (id :: left) y)
    (hz : AccountRely r (noteReport id status y.1, y.2) z) : Closing r x left z where
  toBalanced := by
    have hy := h.toBalanced
    rw [List.count_cons] at hy
    simp only [beq_iff_eq] at hy
    exact (balanced_noteReport hs hy).trans hz.toBalanced
  closed hc := hz.closed (h.closed hc)
  tidy := hz.tidy (tidy_noteReport id status h.tidy)
  final := h.final.elim hz.doomed fun hc => .inr (hz.closed hc)

/-- Every outstanding request has been reported, and none is left. -/
structure Emptied (r : RequestId) (x y : Trace PeerContext Call) : Prop
    extends Balanced r 0 x y where
  closed : x.1.closed = true → y.1.closed = true
  settled : y.1.localRequestIds.contains r = false
  once : y.1.requested.count r ≤ 1

theorem Emptied.tidy (h : Emptied r x y) : Tidy r y.1 := tidy_of_not_outstanding h.settled h.once

theorem Emptied.kept (h : Emptied r x y) : AccountKept r x y := ⟨h.toBalanced, h.closed, fun _ => h.tidy⟩

theorem account_closeLocalRequests {status : ResponseStatusCode} (hs : isTerminal status = true)
    (hone : x.1.requested.count r ≤ 1) (hfinal : x.1.Doomed ∨ x.1.closed = true) :
    Meets (AccountRely r) (fun _ y => Tidy r y.1) (fun _ z => Emptied r x z)
      (closeLocalRequests status x.1) x.2 := by
  have hstart : Closing r x x.1.localRequestIds.keys
      ({ x.1 with localRequestIds := .empty }, x.2) := by
    refine ⟨⟨id, fun _ => ?_⟩, id, tidy_of_not_outstanding rfl hone, hfinal⟩
    simp only [OrdMap.count_keys]
    rfl
  have hloop := Meets.forM (R := AccountRely r) (V := fun _ y => Tidy r y.1)
    (I := Closing r x) (Q := Closing r x []) (f := fun id => notify id status [])
    (fun id left y hy => (account_notify id status [] hy.tidy).mono fun _ z hz => hy.step hs hz)
    (fun y hy => hy) x.1.localRequestIds.keys _ hstart
  refine Meets.get (Meets.modify (Meets.seq (hloop.mono fun _ z hz => ?_)))
  refine ⟨Balanced.and_same (n := 0) hz.toBalanced ?_, hz.closed, hz.tidy.settled hz.final, hz.tidy.once⟩
  exact .of_same rfl rfl rfl rfl

/-- The context is marked as closed, its streams are being removed. -/
structure Winding (r : RequestId) (x y : Trace PeerContext Call) : Prop
    extends Balanced r 0 x y where
  closed : y.1.closed = true
  once : y.1.requested.count r ≤ 1
  reachable : y.1.localRequestIds.contains r = true → y.1.requestsEndpoint.isSome = true

theorem Winding.emptied (h : Winding r x y) (hz : Emptied r y z) : Winding r x z where
  toBalanced := h.toBalanced.trans hz.toBalanced
  closed := hz.closed h.closed
  once := hz.once
  reachable hr := by
    rw [hz.settled] at hr
    cases hr

theorem Winding.settle (h : Winding r x y) (hgone : y.1.localRequestIds.contains r = false) :
    Emptied r x y := ⟨h.toBalanced, fun _ => h.closed, hgone, h.once⟩

theorem winding_removeStream (stream : StreamPtr) {status : ResponseStatusCode}
    (hs : isTerminal status = true) (h : Winding r x y) :
    Meets (AccountRely r) (fun _ y => Tidy r y.1) (fun _ z => Winding r x z)
      (removeStream stream status y.1) y.2 := by
  have hdrop := Silent.dropRemoteRequests y.1 stream
  let erased : PeerContext :=
    { y.1.dropRemoteRequests stream with streams := y.1.streams.erase stream }
  have hsome : (y.1.dropRemoteRequests stream).requestsEndpoint.isSome = y.1.requestsEndpoint.isSome := by
    have := congrArg Option.isSome hdrop.endpoint
    simpa only [Option.isSome_map] using this
  have herased : Winding r x (erased, y.2) := by
    refine ⟨h.toBalanced.trans (.of_same hdrop.requested hdrop.cancelled hdrop.reported hdrop.localIds),
      hdrop.closed.trans h.closed, hdrop.requested.symm ▸ h.once, fun hr => ?_⟩
    exact hsome.trans (h.reachable (hdrop.localIds ▸ hr))
  refine Meets.get (Meets.ite (fun _ => Meets.modify (Meets.ite (fun _ => ?_) fun _ => herased)) fun _ => h)
  refine (account_closeLocalRequests (x := (erased, y.2)) hs herased.once (.inr herased.closed)).mono ?_
  exact fun _ z hz => herased.emptied hz

/-- The end of `close`, whichever way the network is told. -/
theorem emptied_peerClosed {status : ResponseStatusCode} (h : Emptied r x y) (hc : y.1.closed = true) :
    Meets (AccountRely r) (fun _ y => Tidy r y.1) (fun _ z => Emptied r x z ∧ z.1.closed = true)
      ((if status ≠ .rejectedLocally then
          Prog.modify fun s : PeerContext => { s with timer := .peerClosed }
        else Prog.call (.peerClosed .rejectedLocally)) y.1) y.2 := by
  refine Meets.ite (fun _ => ⟨⟨h.toBalanced.and_same ?_, h.closed, h.settled, h.once⟩, hc⟩) fun _ =>
    ⟨h.tidy, fun z hz => ?_⟩
  · exact .of_same rfl rfl rfl rfl
  have hkept := h.kept.trans ((AccountRely.of_calls _).trans hz).toAccountKept
  have htidy := hz.tidy h.tidy
  exact ⟨⟨hkept.toBalanced, hkept.closed, htidy.settled (.inr (hz.closed hc)), htidy.once⟩, hz.closed hc⟩

/-- Closing settles the account. -/
theorem account_close {status : ResponseStatusCode} (hs : isTerminal status = true)
    (hopen : x.1.closed = false) (hone : x.1.requested.count r ≤ 1)
    (hreach : x.1.localRequestIds.contains r = true → x.1.requestsEndpoint.isSome = true) :
    Meets (AccountRely r) (fun _ y => Tidy r y.1) (fun _ z => Emptied r x z ∧ z.1.closed = true)
      (close status x.1) x.2 := by
  let marked : PeerContext :=
    { x.1 with closeStatus := status, closed := true, remoteRequestsStreams := .empty }
  have hstart : Winding r x (marked, x.2) := ⟨.of_same rfl rfl rfl rfl, rfl, hone, hreach⟩
  refine Meets.get (Meets.ite (fun _ => Meets.modify (Meets.seq ?_)) fun hc => absurd hopen hc)
  refine (Meets.forM (I := fun _ y => Winding r x y) (Q := Winding r x)
    (fun stream _ y hy => winding_removeStream stream hs hy) (fun _ hy => hy) x.1.streams.keys
    (marked, x.2) hstart).mono fun _ y hy => ?_
  refine Meets.get (Meets.seq (Meets.ite (fun _ => ?_) fun hnone => ?_))
  · refine (account_closeLocalRequests hs hy.once (.inr hy.closed)).mono fun _ z hz => ?_
    exact emptied_peerClosed ((hy.emptied hz).settle hz.settled) (hy.emptied hz).closed
  · have hgone : y.1.localRequestIds.contains r = false := by
      rw [← Bool.not_eq_true]
      exact fun hr => hnone (hy.reachable hr)
    exact emptied_peerClosed (hy.settle hgone) hy.closed

theorem account_keeps_close {status : ResponseStatusCode} (hs : isTerminal status = true) :
    AccountKeeps r x (close status) := by
  by_cases hopen : x.1.closed = false
  · intro ht
    have hreach : x.1.localRequestIds.contains r = true → x.1.requestsEndpoint.isSome = true := by
      intro hr
      obtain ⟨-, -, o, ho, -⟩ := ht.live hr
      have := congrArg Option.isSome ho
      simpa only [endpointStream, Option.isSome_map, Option.isSome_some] using this
    exact (account_close hs hopen ht.once hreach).mono fun _ y hy => ⟨hy.1.kept, fun _ => .inr hy.2⟩
  · exact Keeps.get (Keeps.ite (fun hc => absurd hc hopen) fun _ => Keeps.pure account_rely ())

theorem account_writeRules : WriteRules (fun x prog => AccountKeeps r x prog) (AccountRely r)
    fun x t => Tidy r x.1 → AccountRely r x (t, x.2) where
  toLogic := account_rely.logic
  plain h _ := .of_silent h.toSilent
  close := account_keeps_close

/-! ## Events -/

/-- Programs that the streams and the scheduler start. -/
abbrev AccountKeepsTop (r : RequestId) (x : Trace PeerContext Call) {α : Type} (prog : Action α) :
    Prop :=
  Keeps (AccountRely r) (AccountKept r) (fun _ y => Tidy r y.1) (fun x => Tidy r x.1) x prog

theorem account_removeStream (stream : StreamPtr) {status : ResponseStatusCode}
    (hs : isTerminal status = true) : AccountKeepsTop r x (removeStream stream status) := by
  refine Keeps.get (Keeps.ite (fun hin => ?_) fun _ => Keeps.pure account_rely_top ())
  intro ht
  have hdrop := Silent.dropRemoteRequests x.1 stream
  let erased : PeerContext :=
    { x.1.dropRemoteRequests stream with streams := x.1.streams.erase stream }
  have hstream : erased.endpointStream = x.1.endpointStream := hdrop.endpoint
  have hsame : Balanced r 0 x (erased, x.2) :=
    .of_same hdrop.requested hdrop.cancelled hdrop.reported hdrop.localIds
  have hone : erased.requested.count r ≤ 1 := hdrop.requested.symm ▸ ht.once
  refine Meets.modify (Meets.ite (fun hep => ?_) fun hep => ?_)
  · have hdoomed : erased.Doomed := by
      refine ⟨stream, hstream.trans ?_, by simp [erased, OrdMap.contains_erase]⟩
      obtain ⟨ep, hsome, hget⟩ := Option.bind_eq_some_iff.mp hep
      rw [endpointStream, hsome, Option.map_some, hget]
    refine (account_closeLocalRequests (x := (erased, x.2)) hs hone (.inl hdoomed)).mono fun _ z hz => ?_
    exact ⟨hsame.trans hz.toBalanced, fun hc => hz.closed (hdrop.closed.trans hc), fun _ => hz.tidy⟩
  · refine ⟨hsame, fun hc => hdrop.closed.trans hc, fun _ => ⟨fun hr => ?_, hone⟩⟩
    obtain ⟨hreq, hopen, o, ho, hlive⟩ := ht.live (hdrop.localIds ▸ hr)
    refine ⟨hdrop.requested.symm ▸ hreq, hdrop.closed.trans hopen, o, hstream.trans ho, fun st hst => ?_⟩
    have hne : st ≠ stream := by
      rintro rfl
      obtain ⟨ep, hsome, hget⟩ := Option.map_eq_some_iff.mp ho
      exact hep (by rw [hsome, Option.bind_some, hget]; exact hst)
    simp [OrdMap.contains_erase, hne, hlive st hst]

theorem account_onResponse (response : Message.Response) :
    AccountKeepsTop r x (onResponse response) := by
  refine Keeps.get (Keeps.ite (fun hin => ?_) fun _ => Keeps.pure account_rely_top ())
  intro ht
  refine Meets.seq (Meets.ite (fun hterm => ?_) fun hterm => ?_)
  · have herased : Tidy r (eraseLocalId response.id x.1) := tidy_eraseLocalId ht
    have howed : Balanced r (0 + if response.id = r then 1 else 0) x (eraseLocalId response.id x.1, x.2) := by
      refine ⟨id, fun _ => ?_⟩
      simp only [outstanding, contains_eraseLocalId]
      by_cases hid : response.id = r
      · subst hid
        simp [hin, answered, eraseLocalId]
      · simp [hid, Ne.symm hid, answered, eraseLocalId]
    refine (account_notify (x := (eraseLocalId response.id x.1, x.2)) response.id response.status
      response.extensions herased).mono fun _ z hz => ?_
    exact ⟨(balanced_noteReport hterm howed).trans hz.toBalanced, hz.closed,
      fun _ => hz.tidy (tidy_noteReport _ _ herased)⟩
  · have hnoted : Balanced r 0 x (noteReport response.id response.status x.1, x.2) := by
      refine ⟨id, fun _ => ?_⟩
      rw [answered_noteReport, if_neg fun h => hterm h.2]
      rfl
    refine (account_notify response.id response.status response.extensions ht).mono fun _ z hz => ?_
    exact ⟨hnoted.trans hz.toBalanced, hz.closed, fun _ => hz.tidy (tidy_noteReport _ _ ht)⟩

/-- The endpoint has got its stream, which is not yet among the others. Writing what was pending
leaves it so or closes the context. -/
structure Joining (r : RequestId) (stream : StreamPtr) (x y : Trace PeerContext Call) : Prop
    extends Balanced r 0 x y where
  once : y.1.requested.count r ≤ 1
  state : y.1.closed = true ∧ y.1.localRequestIds.contains r = false ∨
    y.1.closed = false ∧ y.1.requestsEndpoint = some (.connected stream) ∧
      (y.1.localRequestIds.contains r = true → r ∈ y.1.requested)

theorem joining_writeTo {stream : StreamPtr} (h : Joining r stream x y) (data : Bytes) :
    Meets (AccountRely r) (fun _ y => Tidy r y.1) (fun _ z => Joining r stream x z)
      (writeTo stream data y.1) y.2 := by
  let written := (y.1.queues stream).enqueue (y.1.world.closedForWrite stream) data
  have hset : Joining r stream x (setQueue stream written.1 y.1, y.2) := by
    refine ⟨h.toBalanced.and_same ?_, h.once, h.state⟩
    exact .of_same rfl rfl rfl rfl
  refine Meets.get (Meets.modify (Meets.ite (fun _ => Meets.get (Meets.ite (fun hopen => ?_)
    fun _ => hset)) fun _ => hset))
  obtain ⟨hclosed, -⟩ | ⟨-, hep, -⟩ := hset.state
  · rw [hopen] at hclosed
    cases hclosed
  have hterminal : isTerminal .connectionError = true := rfl
  have hclose := account_close (x := (setQueue stream written.1 y.1, y.2)) hterminal hopen hset.once
    fun _ => by rw [hep]; rfl
  refine hclose.mono fun _ z hz => ?_
  exact ⟨hset.toBalanced.trans hz.1.toBalanced, hz.1.once, .inl ⟨hz.2, hz.1.settled⟩⟩

/-- A stream more does not take the endpoint's away. -/
theorem EndpointLive.emplace (h : s.EndpointLive) (ht : t.endpointStream = s.endpointStream)
    {stream : StreamPtr} {ctx : StreamCtx} (hst : t.streams = s.streams.emplace stream ctx) :
    t.EndpointLive := by
  obtain ⟨o, ho, hlive⟩ := h
  refine ⟨o, ht.trans ho, fun st hmem => ?_⟩
  rw [hst, OrdMap.contains_emplace, hlive st hmem, Bool.or_true]

/-- The stream joins the others. -/
theorem Joining.kept {stream : StreamPtr} (h : Joining r stream x y) (hopen : x.1.closed = false)
    (hb : Balanced r 0 y (t, y.2)) {ctx : StreamCtx} (hst : t.streams = y.1.streams.emplace stream ctx)
    (hsame : t.requested = y.1.requested ∧ t.localRequestIds = y.1.localRequestIds ∧
      t.closed = y.1.closed ∧ t.requestsEndpoint = y.1.requestsEndpoint) :
    AccountKept r x (t, y.2) := by
  obtain ⟨hreq, hloc, hclosed, hep⟩ := hsame
  refine ⟨h.toBalanced.trans hb, fun hc => ?_, fun _ => ⟨fun hr => ?_, hreq ▸ h.once⟩⟩
  · rw [hopen] at hc
    cases hc
  rw [hloc] at hr
  obtain ⟨-, hgone⟩ | ⟨hy, hconn, hin⟩ := h.state
  · rw [hgone] at hr
    cases hr
  refine ⟨hreq ▸ hin hr, hclosed.trans hy, some stream, ?_, fun st hmem => ?_⟩
  · rw [endpointStream, hep, hconn]
    rfl
  · cases hmem
    rw [hst, OrdMap.contains_emplace]
    simp

theorem joining_onConnected (stream : StreamPtr) {buffers : List Bytes} {bytes : ℕ} (ht : Tidy r x.1)
    (hopen : x.1.closed = false) (hep : x.1.requestsEndpoint = some (.connecting buffers bytes)) :
    Meets (AccountRely r) (fun _ y => Tidy r y.1) (fun _ z => Joining r stream x z)
      (onConnected stream x.1) x.2 := by
  have hstart : Joining r stream x
      ({ x.1 with requestsEndpoint := some (.connected stream) }, x.2) :=
    ⟨.of_same rfl rfl rfl rfl, ht.once, .inr ⟨hopen, rfl, fun hr => (ht.live hr).1⟩⟩
  refine Meets.get ?_
  rw [hep]
  exact Meets.forM (I := fun _ y => Joining r stream x y) (Q := Joining r stream x)
    (fun data _ y hy => joining_writeTo hy data) (fun _ hy => hy) buffers _ hstart

theorem connecting_of_getState (h : s.getState = .isConnecting) :
    s.closed = false ∧ ∃ buffers bytes, s.requestsEndpoint = some (.connecting buffers bytes) := by
  unfold getState at h
  cases hc : s.closed with
  | true => simp [hc] at h
  | false =>
    cases he : s.streams.isEmpty with
    | false => simp [hc, he] at h
    | true =>
      refine ⟨rfl, ?_⟩
      rcases hep : s.requestsEndpoint with _ | ⟨buffers, bytes⟩ | st
      · simp [hc, he, hep] at h
      · exact ⟨buffers, bytes, rfl⟩
      · simp [hc, he, hep, OutboundEndpoint.isConnecting] at h

theorem account_finishStreamConfig (stream : StreamPtr) :
    AccountKeepsTop r x (finishStreamConfig stream) := by
  intro ht
  refine Meets.get (Meets.seq (Meets.ite (fun hconn => Meets.modify ?_) fun _ => ?_))
  · obtain ⟨hopen, buffers, bytes, hep⟩ := connecting_of_getState (of_decide_eq_true hconn)
    have hset := Silent.setQueue x.1 stream (.create stream)
    have hjoin := joining_onConnected (x := (setQueue stream (.create stream) x.1, x.2)) stream
      (hset.tidy ht) hopen hep
    refine hjoin.mono fun _ y hy => ?_
    refine (AccountRely.of_silent hset).toAccountKept.trans (hy.kept hopen ?_ rfl ⟨rfl, rfl, rfl, rfl⟩)
    exact .of_same rfl rfl rfl rfl
  · refine ⟨.of_same rfl rfl rfl rfl, id, fun _ => ⟨fun hr => ?_, ht.once⟩⟩
    obtain ⟨hreq, hopen, hlive⟩ := ht.live hr
    exact ⟨hreq, hopen, hlive.emplace rfl rfl⟩

theorem not_outstanding_of_no_endpoint (ht : Tidy r s) (hep : s.requestsEndpoint = none) :
    s.localRequestIds.contains r = false := by
  rw [← Bool.not_eq_true]
  intro hr
  obtain ⟨-, -, o, ho, -⟩ := ht.live hr
  rw [endpointStream, hep] at ho
  cases ho

/-- A new endpoint is made when there was none. -/
theorem account_needToConnect (ht : Tidy r x.1) : AccountRely r x (x.1.needToConnect.1, x.2) := by
  unfold needToConnect
  cases hep : x.1.requestsEndpoint with
  | some ep => exact account_rely.refl x
  | none =>
    have hgone := not_outstanding_of_no_endpoint ht hep
    have hdoomed : ¬x.1.Doomed := by
      rintro ⟨st, hst, -⟩
      rw [endpointStream, hep] at hst
      cases hst
    cases hstreams : x.1.streams.entries with
    | nil =>
      exact ⟨⟨.of_same rfl rfl rfl rfl, id, fun _ => tidy_of_not_outstanding hgone ht.once⟩,
        fun hd => absurd hd hdoomed⟩
    | cons e rest =>
      obtain ⟨stream, ctx⟩ := e
      have hq := Plain.createMessageQueue x.1 stream ctx
      refine ⟨⟨.of_same hq.requested hq.cancelled hq.reported hq.localIds, fun hc => hq.closed.trans hc,
        fun _ => tidy_of_not_outstanding ?_ (hq.requested.symm ▸ ht.once)⟩, fun hd => absurd hd hdoomed⟩
      exact (congrArg (·.contains r) hq.localIds).trans hgone

theorem account_rules : FullRules (fun x prog => AccountKeepsTop r x prog) (AccountKept r)
    fun x t => Tidy r x.1 → AccountKept r x (t, x.2) where
  toLogic := account_rely_top.logic
  plain h _ := (AccountRely.of_silent h.toSilent).toAccountKept
  close hs := (account_keeps_close hs).mono fun _ h => h.toAccountKept
  quiet _ := Keeps.call account_rely_top fun ht => ⟨ht, (AccountRely.of_calls _).toAccountKept⟩
  removeStream := account_removeStream
  silent h _ := (AccountRely.of_silent h).toAccountKept
  onResponse := account_onResponse
  finishStreamConfig := account_finishStreamConfig
  needToConnect ht := (account_needToConnect ht).toAccountKept

/-! ## Requests -/

theorem count_noteRequest (id : RequestId) (s : PeerContext) :
    (noteRequest id s).requested.count r = s.requested.count r + if id = r then 1 else 0 := by
  simp [noteRequest, List.count_append, List.count_singleton]

/-- A new request is owed an answer. -/
theorem balanced_noteRequest (id : RequestId) :
    Balanced r (0 + if id = r then 1 else 0) x (noteRequest id x.1, x.2) := by
  have hans : answered r (noteRequest id x.1) = answered r x.1 := rfl
  have hout : outstanding r (noteRequest id x.1) = outstanding r x.1 := rfl
  refine ⟨fun hc => hc, fun _ => ?_⟩
  rw [count_noteRequest, hans, hout]
  omega

theorem tidy_noteRequest {id : RequestId} (ht : Tidy r s) (hnew : id ∉ s.requested) :
    Tidy r (noteRequest id s) := by
  refine ⟨fun hr => ⟨List.mem_append_left _ (ht.live hr).1, (ht.live hr).2⟩, ?_⟩
  rw [count_noteRequest]
  by_cases hid : id = r
  · subst hid
    simp [List.count_eq_zero_of_not_mem hnew]
  · simpa [hid] using ht.once

/-- The id is entered when the request has been taken. -/
theorem account_enter {id : RequestId} {body : Bytes} (ht : Tidy r x.1) (hnew : id ∉ x.1.requested)
    (hopen : x.1.closed = false) (hacc : x.1.accepts body = true)
    (hsilent : Silent (noteRequest id x.1) t) :
    AccountRely r x ({ t with localRequestIds := t.localRequestIds.insert id () }, x.2) := by
  have hlive := accepts_live hacc
  have hnoted := tidy_noteRequest ht hnew
  let entered : PeerContext := { t with localRequestIds := t.localRequestIds.insert id () }
  have hcontains : entered.localRequestIds.contains r =
      (decide (r = id) || x.1.localRequestIds.contains r) := by
    rw [OrdMap.contains_insert, hsilent.localIds]
    rfl
  refine ⟨⟨⟨fun hc => hsilent.cancelled.symm ▸ hc, fun _ => ?_⟩, fun hc => ?_, fun _ => ⟨fun hr => ?_, ?_⟩⟩,
    fun hd => absurd hd hlive.not_doomed⟩
  · have hreq : entered.requested.count r = x.1.requested.count r + if id = r then 1 else 0 := by
      rw [← count_noteRequest, ← hsilent.requested]
    have hans : answered r entered = answered r x.1 := by
      rw [answered, answered, hsilent.reported]
      rfl
    have hout : outstanding r entered = outstanding r x.1 + if id = r then 1 else 0 := by
      simp only [outstanding, hcontains]
      by_cases hid : id = r
      · have hgone : x.1.localRequestIds.contains r = false := by
          rw [← Bool.not_eq_true]
          exact fun hr => hnew (hid ▸ (ht.live hr).1)
        simp [hid, hgone]
      · simp [hid, Ne.symm hid]
    show entered.requested.count r + _ + _ = _ + answered r entered + outstanding r entered + 0
    omega
  · exact hsilent.closed.trans hc
  · have hmem : r ∈ (noteRequest id x.1).requested := by
      by_cases hid : r = id
      · subst hid
        exact List.mem_append_right _ (List.mem_singleton_self r)
      · have hr' : x.1.localRequestIds.contains r = true := by
          simpa [hid] using hcontains.symm.trans hr
        exact List.mem_append_left _ (ht.live hr').1
    refine ⟨hsilent.requested.symm ▸ hmem, hsilent.closed.trans hopen, ?_⟩
    exact hsilent.live (s := noteRequest id x.1) hlive
  · exact hsilent.requested.symm ▸ hnoted.once

theorem account_enqueueRequest {id : RequestId} {body : Bytes}
    (ho : x.1.Orderly (.enqueueRequest id body)) : AccountKeeps r x (enqueueRequest id body) := by
  obtain ⟨hnew, htakes⟩ := ho
  intro ht
  have hnoted := tidy_noteRequest ht hnew
  refine Meets.modify (Meets.get (Meets.ite (fun hc => ?_) fun hc => ?_))
  · refine (account_notify (x := (noteRequest id x.1, x.2)) id .internalError [] hnoted).mono fun _ z hz => ?_
    exact ⟨⟨(balanced_noteReport rfl (balanced_noteRequest id)).and_same hz.toBalanced, hz.closed,
      fun _ => hz.tidy (tidy_noteReport _ _ hnoted)⟩, fun _ => .inr (hz.closed hc)⟩
  · have hopen : x.1.closed = false := Bool.eq_false_iff.mpr hc
    have hacc : x.1.accepts body = true := htakes.resolve_left fun h => hc h
    have htaken : x.1.takes body = true := (Bool.and_eq_true_iff.mp hacc).1
    cases hep : (noteRequest id x.1).requestsEndpoint with
    | none =>
      rw [takes, show x.1.requestsEndpoint = none from hep] at htaken
      cases htaken
    | some ep =>
      obtain ⟨hroom, t, hrun, hsilent⟩ := enqueue_of_takes (s := noteRequest id x.1) hep htaken
      refine Meets.ite (fun hfull => ?_) fun _ => Meets.seq ?_
      · rw [hroom] at hfull
        cases hfull
      · rw [hrun]
        exact account_enter ht hnew hopen hacc hsilent.toSilent

/-- A cancelled id is off the account. -/
theorem account_cancelRequest (id : RequestId) (body : Bytes) :
    AccountKeeps r x (cancelRequest id body) := by
  have hnote : Tidy r x.1 → AccountRely r x (noteCancel id x.1, x.2) := fun ht =>
    ⟨⟨⟨fun hc => List.mem_append_left _ hc, fun _ => rfl⟩, fun hc => hc, fun _ => ⟨ht.live, ht.once⟩⟩, .inl⟩
  have herase : Tidy r (noteCancel id x.1) → AccountRely r (noteCancel id x.1, x.2)
      (eraseLocalId id (noteCancel id x.1), x.2) := by
    refine fun ht => ⟨⟨⟨fun hc => hc, fun hc => ?_⟩, fun hc => hc, fun _ => tidy_eraseLocalId ht⟩, .inl⟩
    have hne : r ≠ id := by
      rintro rfl
      exact hc (List.mem_append_right _ (List.mem_singleton_self r))
    have hout : outstanding r (eraseLocalId id (noteCancel id x.1)) = outstanding r (noteCancel id x.1) := by
      simp only [outstanding, contains_eraseLocalId, hne, decide_false, Bool.not_false, Bool.true_and]
    rw [hout]
    rfl
  exact keeps_cancelRequest account_writeRules body hnote fun _ => herase

/-! ## Runs -/

/-- What the network may start while a feedback is being called. -/
theorem account_op {o : Op} (ho : x.1.Orderly o) (hre : o.reentrant = true) :
    AccountKeeps r x (op o) := by
  cases o with
  | setOutboundAddress connectTo =>
    exact Keeps.modify fun _ => .of_silent (Plain.setOutboundAddress x.1 connectTo).toSilent
  | needToConnect => exact Keeps.modify account_needToConnect
  | enqueueRequest id body => exact account_enqueueRequest ho
  | cancelRequest id body => exact account_cancelRequest id body
  | addBlockToResponse id cid data =>
    exact Keeps.bind account_rely (keeps_respond account_writeRules id _) fun _ _ _ => Keeps.pure account_rely ()
  | sendResponse id status extensions => exact keeps_sendResponse account_writeRules id status extensions
  | keepAlive => exact Keeps.pure account_rely ()
  | close status => exact account_keeps_close ho
  | world w => exact Keeps.modify fun _ => .of_silent ⟨rfl, rfl, rfl, rfl, rfl, rfl, rfl, fun _ => rfl⟩
  | _ => cases hre

theorem account_op_top {o : Op} (ho : x.1.Orderly o) : AccountKeepsTop r x (op o) := by
  by_cases hreq : o.isRequest = false
  · exact keeps_fullOp account_rules hreq
  · cases o with
    | enqueueRequest id body => exact (account_op ho rfl).mono fun _ h => h.toAccountKept
    | cancelRequest id body => exact (account_op ho rfl).mono fun _ h => h.toAccountKept
    | close status => exact (account_op ho rfl).mono fun _ h => h.toAccountKept
    | _ => exact absurd rfl hreq

/-- The account between and within the operations. -/
def Accounted (r : RequestId) (stack : List Call) (x : Trace PeerContext Call) : Prop :=
  Tidy r x.1 ∧ (stack = [] → r ∉ x.1.cancelled →
    x.1.requested.count r = answered r x.1 + outstanding r x.1)

theorem Accounted.moved {stack : List Call} (h : Accounted r stack x) (hxy : AccountKept r x y) :
    Accounted r stack y := by
  refine ⟨hxy.tidy h.1, fun hst hc => ?_⟩
  have := h.2 hst fun hx => hc (hxy.cancelled hx)
  have := hxy.balance hc
  omega

theorem accounted_of_run {peer : PeerId} {feedbacks : List InstanceId} {world : World}
    {ms : List (Move Op)} {c : Config PeerContext Call}
    (hok : Runs.EveryStep step OrderlyMove (Config.start (create peer feedbacks world)) ms)
    (hr : Runs.run step (Config.start (create peer feedbacks world)) ms = some c) :
    Accounted r c.pending (c.state, c.calls) := by
  have hstart : Accounted r [] (create peer feedbacks world, []) :=
    ⟨tidy_of_not_outstanding rfl (Nat.zero_le _), fun _ _ => rfl⟩
  have hsound := Sound.run (R := AccountRely r) (V := Accounted r) account_rely.refl
    (fun _ _ _ => AccountRely.trans) (fun _ _ _ hx hxy => hx.moved hxy.toAccountKept)
    (fun c o ho hen hV => ?_) (.start hstart) hok hr
  · exact hsound.valid
  · have hcalls : ∀ (d : Call) (y : Trace PeerContext Call), Tidy r y.1 →
        Accounted r (d :: c.pending) y := fun d y hy => ⟨hy, fun hst => absurd hst (List.cons_ne_nil d _)⟩
    cases hst : c.pending with
    | nil =>
      have hkeeps := account_op_top (x := (c.state, c.calls)) (r := r) ho hV.1
      exact hkeeps.weaken (fun d y hy => hst ▸ hcalls d y hy) fun _ y hy => (hst ▸ hV).moved hy
    | cons d rest =>
      have hre : o.reentrant = true := by
        rw [hst] at hen
        simpa [enabled] using hen
      have hkeeps := account_op (x := (c.state, c.calls)) (r := r) ho hre hV.1
      exact hkeeps.weaken (fun d' y hy => hst ▸ hcalls d' y hy) fun _ _ hy => hy

/-- The calls that give a feedback a terminal status for an id. -/
def terminalReports (fb : InstanceId) (id : RequestId) (calls : List Call) : ℕ :=
  told (fun i status => i = id && isTerminal status) fb calls

/-- **No request is lost** in the runs in which every request is taken: between the operations a
feedback has been given at most one terminal status for an id that was asked for and not cancelled,
and exactly one when the context is closed. -/
theorem reported_exactly_once {peer : PeerId} {feedbacks : List InstanceId} {world : World}
    (hnodup : feedbacks.Nodup) {ms : List (Move Op)} {c : Config PeerContext Call}
    (hok : Runs.EveryStep step OrderlyMove (Config.start (create peer feedbacks world)) ms)
    (hr : Runs.run step (Config.start (create peer feedbacks world)) ms = some c)
    (hidle : c.frames = []) {fb : InstanceId} (hfb : fb ∈ feedbacks) {id : RequestId}
    (hreq : id ∈ c.state.requested) (hcancel : id ∉ c.state.cancelled) :
    terminalReports fb id c.calls ≤ 1 ∧
      (c.state.closed = true → terminalReports fb id c.calls = 1) := by
  obtain ⟨hfeedbacks, htold⟩ :=
    told_of_run (fun i status => i = id && isTerminal status) fb rfl hr hidle
  have hcount : c.state.graphsyncFeedbacks.count fb = 1 :=
    hfeedbacks ▸ List.count_eq_one_of_mem hnodup hfb
  have hreports : terminalReports fb id c.calls = answered id c.state := by
    rw [terminalReports, htold, due, hcount, Nat.mul_one, answered]
  have hpending : c.pending = [] := by rw [Config.pending, hidle, List.map_nil]
  obtain ⟨htidy, haccount⟩ := accounted_of_run (r := id) hok hr
  have hbalance := haccount hpending hcancel
  have hpos := List.count_pos_iff.mpr hreq
  have hone := htidy.once
  simp only at hbalance hone
  refine ⟨by omega, fun hclosed => ?_⟩
  have hout : outstanding id c.state = 0 := by
    rw [outstanding, htidy.settled (.inr hclosed)]
    rfl
  omega

/-! ## Runs of one context -/

def quietWorld : World := ⟨fun _ => false, 0⟩

/-- The request is written, answered, and the context is closed. -/
def answeredRun : List (Move Op) :=
  [.invoke .needToConnect, .invoke (.streamConnected (some 5)), .invoke (.windowAdjusted 5 true),
    .invoke (.enqueueRequest 1 [42]),
    .invoke (.readerEvent 5 (some ⟨false, [], [⟨1, .notFound, []⟩], []⟩)), .ret,
    .invoke (.close .rejectedLocally), .ret]

theorem reported_once_answered :
    ∃ c, Runs.run step (Config.start (create 0 [7] quietWorld)) answeredRun = some c ∧
      c.state.closed = true ∧ terminalReports 7 1 c.calls = 1 :=
  have hr : Runs.run step (Config.start (create 0 [7] quietWorld)) answeredRun =
      some ((Runs.run step (Config.start (create 0 [7] quietWorld)) answeredRun).get rfl) := rfl
  have hreq : (1 : RequestId) ∈ ((Runs.run step (Config.start (create 0 [7] quietWorld))
      answeredRun).get rfl).state.requested := by decide
  ⟨_, hr, rfl, (reported_exactly_once (by decide) (by decide) hr rfl (by decide) hreq (by decide)).2 rfl⟩

/-- The stream is closed for writing when the request comes: the context closes, and then the id is
entered. -/
def failedWriteRun : List (Move Op) :=
  [.invoke .needToConnect, .invoke (.streamConnected (some 5)), .invoke (.windowAdjusted 5 true),
    .invoke (.world ⟨fun _ => true, 0⟩), .invoke (.enqueueRequest 1 [42])]

/-- The stream of the endpoint breaks, another stream is open; told of the failure the feedback asks
again at once. -/
def retryRun : List (Move Op) :=
  [.invoke .needToConnect, .invoke (.streamConnected (some 5)), .invoke (.windowAdjusted 5 true),
    .invoke (.streamAccepted 6), .invoke (.windowAdjusted 6 true), .invoke (.enqueueRequest 1 [42]),
    .invoke (.readerEvent 5 none), .invoke .needToConnect, .invoke (.enqueueRequest 2 [43]), .ret,
    .invoke (.close .rejectedLocally), .ret]

/-- What a run leaves when no call is pending: whether the id was asked for and not cancelled,
whether the context is closed, and how often the feedback was told of an end. -/
def outcome (ms : List (Move Op)) (fb : InstanceId) (id : RequestId) : Option (Bool × Bool × ℕ) :=
  (Runs.run step (Config.start (create 0 [7] quietWorld)) ms).bind fun c =>
    if c.frames.isEmpty then
      some (decide (id ∈ c.state.requested ∧ id ∉ c.state.cancelled), c.state.closed,
        terminalReports fb id c.calls)
    else none

/-- Two requests that are asked for, not cancelled, and never reported by a closed context. -/
theorem requests_lost :
    outcome failedWriteRun 7 1 = some (true, true, 0) ∧ outcome retryRun 7 2 = some (true, true, 0) := by
  decide

end

end IpfsLite.Graphsync.PeerContext
