import IpfsLite.Graphsync.StaleResponses

/-! # The order in which a message is handed on

A message is dispatched in three loops: its requests, its responses, its blocks. Only the last one
hands blocks on, and nothing that the feedbacks may do meanwhile does. So a response is processed
before any block of its message. -/
namespace IpfsLite.Graphsync.PeerContext
set_option autoImplicit false

open Reentrant

def Call.isBlock : Call → Bool
  | .onBlock _ _ _ _ => true
  | _ => false

/-! ## What hands no block on -/

def NotBlock (c : Call) : Prop := c.isBlock = false

/-- The judgement that only such calls are made. -/
abbrev OnlyNotBlock (x : Trace PeerContext Call) {α : Type} (p : Action α) : Prop := Only NotBlock (p x.1)

section
variable {x : Trace PeerContext Call}

theorem notBlock_logic :
    Logic (fun x p => OnlyNotBlock x p) (fun _ _ => True) fun _ _ => True := Only.logic

theorem notBlock_notify (id : RequestId) (status : ResponseStatusCode) (extensions : List Extension) :
    OnlyNotBlock x (notify id status extensions) :=
  keeps_notify notBlock_logic trivial fun _ _ => ⟨rfl, fun _ => trivial⟩

theorem notBlock_closeLocalRequests (status : ResponseStatusCode) :
    OnlyNotBlock x (closeLocalRequests status) :=
  keeps_closeLocalRequests notBlock_logic trivial (fun _ id => notBlock_notify id status []) fun _ => trivial

theorem notBlock_removeStream (stream : StreamPtr) (status : ResponseStatusCode) :
    OnlyNotBlock x (removeStream stream status) :=
  keeps_removeStream notBlock_logic (fun _ => trivial) fun _ => notBlock_closeLocalRequests status

theorem notBlock_close (status : ResponseStatusCode) : OnlyNotBlock x (close status) :=
  keeps_close notBlock_logic (fun _ => trivial) (fun _ stream => notBlock_removeStream stream status)
    (fun _ => notBlock_closeLocalRequests status) (fun _ => trivial) fun _ => ⟨rfl, fun _ => trivial⟩

theorem notBlock_rules : WriteRules (fun x p => OnlyNotBlock x p) (fun _ _ => True) fun _ _ => True where
  toLogic := notBlock_logic
  plain _ := trivial
  close _ := notBlock_close _

/-- Whatever the feedbacks do while they are called. -/
theorem notBlock_reentrant {o : Op} (ho : o.reentrant = true) : OnlyNotBlock x (op o) := by
  cases o with
  | needToConnect => trivial
  | enqueueRequest id body =>
    exact keeps_enqueueRequest notBlock_rules body trivial (fun _ => notBlock_notify _ _ _) fun _ => trivial
  | cancelRequest id body => exact keeps_cancelRequest notBlock_rules body trivial fun _ => trivial
  | close status => exact notBlock_close status
  | setOutboundAddress _ | addBlockToResponse _ _ _ | sendResponse _ _ _ | keepAlive | world _ =>
    exact keeps_op notBlock_rules rfl rfl
  | _ => cases ho

/-! ## The loops over a message -/

theorem notBlock_onRequest (stream : StreamPtr) (request : Message.Request) :
    OnlyNotBlock x (onRequest stream request) :=
  keeps_onRequest notBlock_rules (fun _ _ _ => trivial) (fun _ _ _ _ => trivial) fun _ _ =>
    ⟨rfl, fun _ => trivial⟩

theorem notBlock_onResponse (response : Message.Response) : OnlyNotBlock x (onResponse response) :=
  keeps_onResponse notBlock_logic trivial fun _ => notBlock_notify _ _ _

/-- The last loop calls with blocks only. -/
theorem noResponse_onBlocks (data : List Block) :
    Only (fun c : Call => c.isResponse = false) (onBlocks data x.1) :=
  keeps_onBlocks (x := x) Only.logic fun _ _ _ _ => ⟨rfl, fun _ => trivial⟩

/-- What holds while these calls are pending, if the message came in `x`: under a response no block
has been handed on. -/
def ResponseFirst (x : Trace PeerContext Call) (stack : List Call) (y : Trace PeerContext Call) : Prop :=
  stack.getLast?.any Call.isResponse = true → Adds NotBlock x y

theorem meets_onReaderEvent (stream : StreamPtr) (msg : Message) :
    Meets (Adds NotBlock) (fun d => ResponseFirst x [d]) (fun _ _ => True)
      (onReaderEvent stream (some msg) x.1) x.2 := by
  have first {α : Type} {p : Action α} {y : Trace PeerContext Call} (hp : OnlyNotBlock y p)
      (hxy : Adds NotBlock x y) : Meets (Adds NotBlock) (fun d => ResponseFirst x [d])
        (fun _ z => Adds NotBlock x z) (p y.1) y.2 :=
    (hp.meets fun _ => hxy).weaken (fun _ _ h _ => h.2) fun _ _ h => h
  refine Meets.get (Meets.ite (fun _ => Meets.ite (fun _ => ?_) fun _ => trivial) fun _ => trivial)
  refine Meets.seq ((first (notBlock_logic.when fun _ => notBlock_logic.modify trivial) (Adds.refl x)).mono fun _ y hy => ?_)
  refine Meets.seq ((first (notBlock_logic.forM fun item _ z _ =>
    notBlock_onRequest (x := z) stream item) hy).mono fun _ z hz => ?_)
  refine Meets.seq ((first (notBlock_logic.forM fun item _ w _ =>
    notBlock_onResponse (x := w) item) hz).mono fun _ w _ => ?_)
  -- from here on no response is reported, so nothing is owed at the calls
  have hblocks : Only (fun c : Call => c.isResponse = false) ((do
      onBlocks msg.data
      Prog.modify (shiftExpireTime stream)) w.1) :=
    Only.logic.bind (x := w) (noResponse_onBlocks msg.data) fun _ _ _ => trivial
  refine (hblocks.calls w.2).weaken (fun c y hc hlast => ?_) fun _ _ _ => trivial
  exact absurd (hc.symm.trans hlast) Bool.false_ne_true

end

/-! ## Runs -/

/-- **Responses come before the blocks of their message**, whatever message it is and in whatever
state it comes: while `RS_FULL_CONTENT` is being processed, no feedback has been given a block. -/
theorem response_before_blocks {c₀ c₁ c : Config PeerContext Call} {stream : StreamPtr} {msg : Message}
    (hidle : c₀.frames = []) (hmsg : step c₀ (.invoke (.readerEvent stream (some msg))) = some c₁)
    {mid : List (Move Op)} (hmid : Runs.EveryStep step (fun d _ => d.frames ≠ []) c₁ mid)
    (hr : Runs.run step c₁ mid = some c) {fb : InstanceId} {id : RequestId} {extensions : List Extension}
    (hresponse : c.pending.getLast? = some (.onResponse fb id .fullContent extensions)) :
    ∀ d ∈ c.calls.drop c₀.calls.length, d.isBlock = false := by
  set x : Trace PeerContext Call := (c₀.state, c₀.calls) with hx
  have hstable (stack : List Call) (y z : Trace PeerContext Call) (hy : ResponseFirst x stack y)
      (hyz : Adds NotBlock y z) : ResponseFirst x stack z := fun hlast => (hy hlast).trans hyz
  have hfirst : Sound (Adds NotBlock) (ResponseFirst x) c₁ := by
    have hsettled : c₁ = Config.settle [] c₀.calls (onReaderEvent stream (some msg) c₀.state) := by
      have hstep : step c₀ (.invoke (.readerEvent stream (some msg))) =
          some (Config.settle c₀.frames c₀.calls (onReaderEvent stream (some msg) c₀.state)) :=
        if_pos (by simp [enabled, Config.pending, hidle])
      rw [hidle] at hstep
      exact Option.some.inj (hmsg.symm.trans hstep)
    rw [hsettled]
    refine Sound.settle (b := x) (fun y => Adds.refl y) (fun _ _ _ h h' => h.trans h') hstable ?_ .nil ?_
    · intro hlast
      cases hlast
    · refine (meets_onReaderEvent (x := x) stream msg).mono fun _ y _ hlast => ?_
      cases hlast
  have hsound : Sound (Adds NotBlock) (ResponseFirst x) c := by
    refine Sound.run (fun y => Adds.refl y) (fun _ _ _ h h' => h.trans h') hstable ?_ hfirst hmid hr
    intro d o hframes hen hV
    have hpending : d.pending ≠ [] := fun h => hframes (List.map_eq_nil_iff.mp h)
    have hre : o.reentrant = true := by
      cases hp : d.pending with
      | nil => exact absurd hp hpending
      | cons e rest => simpa [enabled, hp] using hen
    refine ((notBlock_reentrant (x := (d.state, d.calls)) hre).meets (x := (d.state, d.calls)) fun _ => ?_).weaken
      (fun e y hy hlast => ?_) fun _ y hy => ?_
    · exact Adds.refl (d.state, d.calls)
    · rw [List.getLast?_cons_of_ne_nil hpending] at hlast
      exact (hV hlast).trans hy.2
    · cases hp : d.pending with
      | nil => exact absurd hp hpending
      | cons e rest => exact hy
  obtain ⟨added, hcalls, hadded⟩ := hsound.valid (by rw [hresponse]; rfl)
  have hcalls' : c.calls = c₀.calls ++ added := hcalls
  rw [hcalls', List.drop_left]
  exact hadded

/-- A block of one byte with the status of its request. -/
def lastMessage : Message := ⟨false, [], [⟨1, .fullContent, []⟩], [⟨Node.sevenCid, [7]⟩]⟩

/-- Request 1 is made over stream 5. -/
def requestedRun : List (Move Op) :=
  [.invoke .needToConnect, .invoke (.enqueueRequest 1 [0]), .invoke (.streamConnected (some 5)),
    .invoke (.windowAdjusted 5 true)]

def requestedContext : Config PeerContext Call :=
  Runs.last step (Config.start (create 9 [0] ⟨fun _ => false, 0⟩)) requestedRun

def respondedContext : Config PeerContext Call :=
  (step requestedContext (.invoke (.readerEvent 5 (some lastMessage)))).get rfl

theorem last_message_response_first :
    (respondedContext.calls.drop requestedContext.calls.length).all (fun d => !d.isBlock) = true := by
  have hmsg : step requestedContext (.invoke (.readerEvent 5 (some lastMessage))) = some respondedContext :=
    (Option.some_get _).symm
  have hcall : respondedContext.pending.getLast? = some (.onResponse 0 1 .fullContent []) := by
    decide +kernel
  have hmid : Runs.EveryStep step (fun d _ => d.frames ≠ []) respondedContext [] := trivial
  have hall := response_before_blocks rfl hmsg hmid (Runs.run_nil step respondedContext) hcall
  exact List.all_eq_true.mpr fun d hd => by rw [hall d hd, Bool.not_false]

end IpfsLite.Graphsync.PeerContext

namespace IpfsLite.Graphsync.Node

/-- The root is requested, and its block comes in one message with the status. -/
def fullContentRun : List (Reentrant.Move Op) :=
  [.invoke (.start 0), .invoke (.makeRequest 0 9 none sevenCid [] []),
    .invoke (.event 0 (.streamConnected (some 5))), .invoke (.event 0 (.windowAdjusted 5 true)),
    .invoke (.event 0 (.readerEvent 5 (some PeerContext.lastMessage)))]

/-- The user is told of the success while the request is in progress, and gets the block after. -/
theorem success_before_block :
    (Runs.run step (Reentrant.Config.start initial) (fullContentRun ++ [.ret])).isSome = true ∧
      (after fullContentRun).pending = [.progress 0 1 .fullContent [] .response] ∧
      (after fullContentRun).state.isInProgress 0 sevenCid = true ∧
      (after fullContentRun).calls = [.progress 0 1 .fullContent [] .response] ∧
      (after (fullContentRun ++ [.ret])).pending = [.block 0 sevenCid [7]] := by
  decide +kernel

end IpfsLite.Graphsync.Node
