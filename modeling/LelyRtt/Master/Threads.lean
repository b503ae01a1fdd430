import LelyRtt.Master.Shared

/-!
This module contains the application threads: one function for each, which runs the atomic step that
the thread's program point names. Plain accesses to a request that no other thread can see at that
point are one step.
-/

namespace LelyRtt

variable {ι κ : Type} [DecidableEq ι] [DecidableEq κ]

/--
One step of `lely_rtt_master_command_post` by `tid`, with `lely_rtt_master_command_acquire` and
`lely_rtt_master_command_release` inlined. It ends in a new program point or returns.
-/
def commandPostStep (cfg : BuildConfig) (tid : Tid ι κ) (command : Command ι κ) (pc : PostPc)
    (sh : Shared ι κ) : (PostPc ⊕ RtErr) × Shared ι κ :=
  match pc with
  | .latched =>
    if sh.commandStopLatched then
      (.inr .busy, sh.noteReturn tid command .busy)
    else
      (.inl .quiescing, sh)
  | .quiescing =>
    if sh.commandQuiescing then
      (.inr .busy, sh.noteReturn tid command .busy)
    else
      (.inl .add, sh)
  | .add => (.inl .latchedAgain, { sh with commandRefs := sh.commandRefs + 1 })
  | .latchedAgain =>
    if sh.commandStopLatched then
      (.inl .undo, sh)
    else
      (.inl .quiescingAgain, sh)
  | .quiescingAgain =>
    if sh.commandQuiescing then
      (.inl .undo, sh)
    else
      (.inl .queue, sh)
  | .undo =>
    (.inr .busy, { sh with commandRefs := sh.commandRefs - 1 }.noteReturn tid command .busy)
  | .queue =>
    match sh.commandMq with
    | none => (.inl (.release .busy), sh)
    | some _ => (.inl .send, sh)
  | .send =>
    if sh.queue.length < cfg.commandQueueDepth then
      (.inl .event,
        {
          sh with
            commandMq := some (sh.queue ++ [⟨tid, command⟩])
            sent := sh.sent ++ [⟨tid, command⟩]
        })
    else
      (.inl (.release .full), sh)
  | .event => (.inl (.release .ok), { sh with eventCommand := true })
  | .release err =>
    (.inr err, { sh with commandRefs := sh.commandRefs - 1 }.noteReturn tid command err)

/-- The calls that an application thread makes on its request. -/
inductive AppCall where
  | post (args : PostArgs)
  | cancel
  | destroy
  deriving DecidableEq

/-- Where the loop of `lely_rtt_sdo_request_cancel` goes from the state it read. -/
def cancelNext (st : ReqState) : AppPc ⊕ RtErr :=
  match st with
  | .new => .inr .inval
  | .done => .inr .busy
  | .cancelPending => .inr .ok
  | .pending => .inl (.cancelPin .pending)
  | .active => .inl (.cancelPin .active)
  | .queued => .inl .cancelQueued
  | _ => .inr .busy

/-- Go on at the program point, or return from the cancel call. -/
def cancelContinue (r : ι) (sh : Shared ι κ) (next : AppPc ⊕ RtErr) : Shared ι κ :=
  match next with
  | .inl pc => sh.setApp r pc
  | .inr err => (sh.setApp r .idle).note r (.cancelRet none err)

/-- What `lely_rtt_sdo_request_cancel` does after the unpin returned `reschedule`. -/
def cancelFinish (r : ι) (sh : Shared ι κ) (ctx : CancelCtx) (err : RtErr) (reschedule : Bool)
    : Shared ι κ :=
  if reschedule ∧ ctx.runtimePin then
    sh.setApp r (.wake ctx err)
  else if ctx.runtimePin then
    sh.setApp r (.callbackRelease ctx err)
  else
    (sh.setApp r .idle).note r (.cancelRet (some ctx.kind.base) err)

/-- `cancel_admitted && base_state == PENDING ? CANCEL_PENDING : base_state` -/
def releasedState (kind : PinKind) (admitted : Bool) : ReqState :=
  if admitted ∧ kind = .pending then .cancelPending else kind.base

/--
One step of the application thread of the request `r`. `call` is what an idle thread calls. The post,
cancel and destroy calls on one request have one program point and so do not overlap: the application
must serialize them (`runtime.h`, `struct lely_rtt_sdo_request`).
-/
def appStep (cfg : BuildConfig) (r : ι) (call : AppCall) (sh : Shared ι κ)
    : Option (Shared ι κ) :=
  let request := sh.heap r
  match sh.app r with
  | .idle =>
    match call with
    | .post args =>
      if args.valid then
        some (sh.setApp r (.postLocalId args))
      else
        some (sh.note r (.postRet .inval))
    | .cancel => some (sh.setApp r .cancelLoad)
    | .destroy => some (sh.setApp r .destroyLoad)
  | .postLocalId args =>
    if sh.localNodeId = args.nodeId then
      some ((sh.setApp r .idle).note r (.postRet .inval))
    else
      some (sh.setApp r (.postState args))
  | .postState args =>
    if request.state ≠ .new then
      some ((sh.setApp r .idle).note r (.postRet .busy))
    else if !args.hasData then
      some ((sh.setApp r .idle).note r (.postRet .inval))
    else if args.operation = .download ∧ !args.alloc then
      some ((sh.setApp r .idle).note r (.postRet .nomem))
    else
      some (sh.setApp r (.postId args))
  | .postId args =>
    some ({ sh with sdoNextRequestId := sh.sdoNextRequestId + 1 }.setApp r
      (.postFill args (sh.sdoNextRequestId + 1)))
  | .postFill args id =>
    some (((sh.modify r (args.fill id)).note r (.result .app)).setApp r .postQueued)
  | .postQueued => some ((sh.setState r .queued).setApp r (.postCommand .latched))
  | .postCommand pc =>
    match commandPostStep cfg (.app r) (.sdo r) pc sh with
    | (.inl pc, sh) => some (sh.setApp r (.postCommand pc))
    | (.inr .ok, sh) => some ((sh.setApp r .idle).note r (.postRet .ok))
    | (.inr err, sh) => some (sh.setApp r (.postNew err))
  | .postNew err => some ((sh.setState r .new).setApp r (.postClear err))
  | .postClear err =>
    some (((sh.modify r Request.clear).setApp r .idle).note r (.postRet err))
  | .cancelLoad => some (cancelContinue r sh (cancelNext request.state))
  | .cancelPin kind =>
    if request.state = kind.base then
      some ((sh.setState r kind.pinned).setApp r (.cancelIdent kind))
    else
      some (cancelContinue r sh (cancelNext request.state))
  | .cancelQueued =>
    if request.state = .queued then
      some (((sh.setState r .cancelPending).setApp r .idle).note r
        (.cancelRet (some .queued) .ok))
    else
      some (cancelContinue r sh (cancelNext request.state))
  | .cancelIdent kind =>
    let ctx := ⟨kind, request.runtime, request.nodeId, request.requestId, false⟩
    -- `lely_rtt_master_command_post` rejects a null runtime with `-RT_EINVAL`
    if !request.runtime then
      some (sh.setApp r (.unpin ctx .inval))
    else if kind = .pending then
      some (sh.setApp r (.callbackLoad ctx))
    else
      some (sh.setApp r (.cancelCommand ctx .latched))
  | .callbackLoad ctx =>
    if sh.callbackQuiescing then
      some (sh.setApp r (.unpin ctx .busy))
    else
      some (sh.setApp r (.callbackAdd ctx))
  | .callbackAdd ctx =>
    some ({ sh with callbackRefs := sh.callbackRefs + 1 }.setApp r (.callbackCheck ctx))
  | .callbackCheck ctx =>
    if sh.callbackQuiescing then
      some (sh.setApp r (.callbackUndo ctx))
    else
      some (sh.setApp r (.cancelCommand { ctx with runtimePin := true } .latched))
  | .callbackUndo ctx =>
    some ({ sh with callbackRefs := sh.callbackRefs - 1 }.setApp r (.unpin ctx .busy))
  | .cancelCommand ctx pc =>
    match commandPostStep cfg (.app r) (.sdoCancel ctx.nodeId ctx.requestId) pc sh with
    | (.inl pc, sh) => some (sh.setApp r (.cancelCommand ctx pc))
    | (.inr err, sh) => some (sh.setApp r (.unpin ctx err))
  | .unpin ctx err =>
    let admitted : Bool := err = .ok
    if request.state = ctx.kind.pinned then
      some (cancelFinish r (sh.setState r (releasedState ctx.kind admitted)) ctx err
        (!admitted && ctx.kind = .pending))
    else if request.state = ctx.kind.staged then
      some (sh.setApp r (.unpinRead ctx err))
    else
      some (cancelFinish r sh ctx err false)
  | .unpinRead ctx err =>
    some (sh.setApp r (.unpinHold { ctx with runtime := request.runtime } err))
  | .unpinHold ctx err => some ((sh.setCompletionRefs r 1).setApp r (.unpinDone ctx err))
  | .unpinDone ctx err =>
    if request.state = ctx.kind.staged then
      some (((sh.setState r .done).note r (.setDone .app)).setApp r (.unpinSend ctx err))
    else
      some (sh.setApp r (.unpinClear ctx err))
  | .unpinSend ctx err =>
    some (((sh.sendCompletion r).note r (.sendDone .app)).setApp r (.unpinClear ctx err))
  | .unpinClear ctx err =>
    some (((sh.setCompletionRefs r 0).note r (.clearRefs .app)).setApp r
      (.unpinSub ctx err))
  | .unpinSub ctx err =>
    if ctx.runtime then
      some (cancelFinish r { sh with sdoCancelRefs := sh.sdoCancelRefs - 1 } ctx err false)
    else
      some (cancelFinish r sh ctx err false)
  | .wake ctx err =>
    some ({ sh with eventCommand := true }.setApp r (.callbackRelease ctx err))
  | .callbackRelease ctx err =>
    some (({ sh with callbackRefs := sh.callbackRefs - 1 }.setApp r .idle).note r
      (.cancelRet (some ctx.kind.base) err))
  | .destroyLoad =>
    if request.state = .new ∨ request.state = .done then
      some (sh.setApp r .destroyRefs)
    else
      some ((sh.setApp r .idle).note r (.destroyRet .busy))
  | .destroyRefs =>
    if request.completionRefs = 0 then
      some (sh.setApp r .destroyFree)
    else
      some sh
  | .destroyFree => some ((sh.setApp r .destroyed).note r (.destroyRet .ok))
  | .destroyed => none

/-- One step of the thread that waits for `r`. `timeout` is whether a receive times out. -/
def waiterStep (r : ι) (timeout : Bool) (sh : Shared ι κ) : Option (Shared ι κ) :=
  let request := sh.heap r
  match sh.waiter r with
  | .idle => some (sh.setWaiter r .isNew)
  | .isNew =>
    if request.state = .new then
      some ((sh.setWaiter r .idle).note r (.waitRet .inval))
    else
      some (sh.setWaiter r .isDone)
  | .isDone =>
    if request.state = .done then
      some ((sh.setWaiter r .idle).note r (.waitRet .ok))
    else
      some (sh.setWaiter r .receive)
  | .receive =>
    if request.completion then
      some ((sh.modify r fun request => { request with completion := false }).setWaiter r .recheck)
    else if timeout then
      some ((sh.setWaiter r .idle).note r (.waitRet .timeout))
    else
      none
  | .recheck =>
    if request.state = .done then
      some ((sh.setWaiter r .idle).note r (.waitRet .ok))
    else
      some ((sh.setWaiter r .idle).note r (.waitRet .error))

/-- The commands that the thread `i` may post: all but those about SDO requests. -/
def Command.foreign (i : κ) : Command ι κ → Bool
  | .nmt _ _ | .other => true
  | .cfg request _ => request = i
  | .sdo _ | .sdoCancel _ _ => false

/-- One step of the thread `i` that posts other commands. -/
def posterStep (cfg : BuildConfig) (i : κ) (command : Command ι κ) (sh : Shared ι κ)
    : Option (Shared ι κ) :=
  match sh.poster i with
  | .idle =>
    if command.foreign i then
      some (sh.setPoster i (.posting command .latched))
    else
      none
  | .posting command pc =>
    match commandPostStep cfg (.poster i) command pc sh with
    | (.inl pc, sh) => some (sh.setPoster i (.posting command pc))
    | (.inr _, sh) => some (sh.setPoster i .idle)

/-- One step of the thread that stops the run: `lely_rtt_master_command_quiesce_begin`, then STOP. -/
def controlStep (sh : Shared ι κ) : Shared ι κ :=
  match sh.control with
  | .idle => { sh with control := .latch }
  | .latch => { sh with commandStopLatched := true, control := .quiesce }
  | .quiesce => { sh with commandQuiescing := true, control := .stop }
  | .stop => { sh with eventStop := true, control := .idle }

/-- The steps that the application threads take beside the owner. -/
inductive EnvStep (cfg : BuildConfig) : Shared ι κ → Shared ι κ → Prop
  | app {sh sh' : Shared ι κ} (r : ι) (call : AppCall) : appStep cfg r call sh = some sh' →
      EnvStep cfg sh sh'
  | waiter {sh sh' : Shared ι κ} (r : ι) (timeout : Bool) : waiterStep r timeout sh = some sh' →
      EnvStep cfg sh sh'
  | poster {sh sh' : Shared ι κ} (i : κ) (command : Command ι κ) :
      posterStep cfg i command sh = some sh' → EnvStep cfg sh sh'
  | control {sh : Shared ι κ} : EnvStep cfg sh (controlStep sh)

end LelyRtt
