import LelyRtt.Sdo.Request
import Mathlib.Logic.Function.Basic

/-!
This module contains the state that the owner thread shares with the application: the request
objects, the command queue with its admission flags, the lifetime counters and the events, together
with the program points of all application threads. `ι` names the requests and `κ` the threads that
post the other Master commands.
-/

namespace LelyRtt

/-- `struct lely_rtt_master_command`. A configuration request lives on the stack of its poster. -/
inductive Command (ι κ : Type) where
  | nmt (node : Nat) (command : NmtCommand)
  | sdo (request : ι)
  | sdoCancel (node : Nat) (requestId : BitVec 32)
  | cfg (request : κ) (node : Nat)
  | other
  deriving DecidableEq

/-- The threads that post commands: one for each request, and any others. -/
inductive Tid (ι κ : Type) where
  | app (request : ι)
  | poster (thread : κ)
  deriving DecidableEq

/-- A command in the queue, with the thread that posted it. -/
structure Entry (ι κ : Type) where
  tid : Tid ι κ
  command : Command ι κ
  deriving DecidableEq

/-- The next atomic step of `lely_rtt_master_command_post`. -/
inductive PostPc where
  | latched
  | quiescing
  | add
  | latchedAgain
  | quiescingAgain
  | undo
  | queue
  | send
  | event
  | release (err : RtErr)
  deriving DecidableEq, Repr

/-- What a canceling thread has copied from the request it pinned, and whether it pins the runtime. -/
structure CancelCtx where
  kind : PinKind
  runtime : Bool
  nodeId : Nat
  requestId : BitVec 32
  runtimePin : Bool
  deriving DecidableEq

/-- The next atomic step of the application thread of one request. -/
inductive AppPc where
  | idle
  -- `lely_rtt_runtime_post_sdo`
  | postLocalId (args : PostArgs)
  | postState (args : PostArgs)
  | postId (args : PostArgs)
  | postFill (args : PostArgs) (id : BitVec 32)
  | postQueued
  | postCommand (pc : PostPc)
  | postNew (err : RtErr)
  | postClear (err : RtErr)
  -- `lely_rtt_sdo_request_cancel`
  | cancelLoad
  | cancelPin (kind : PinKind)
  | cancelQueued
  | cancelIdent (kind : PinKind)
  | callbackLoad (ctx : CancelCtx)
  | callbackAdd (ctx : CancelCtx)
  | callbackCheck (ctx : CancelCtx)
  | callbackUndo (ctx : CancelCtx)
  | cancelCommand (ctx : CancelCtx) (pc : PostPc)
  -- `lely_rtt_sdo_request_cancel_unpin`
  | unpin (ctx : CancelCtx) (err : RtErr)
  | unpinRead (ctx : CancelCtx) (err : RtErr)
  | unpinHold (ctx : CancelCtx) (err : RtErr)
  | unpinDone (ctx : CancelCtx) (err : RtErr)
  | unpinSend (ctx : CancelCtx) (err : RtErr)
  | unpinClear (ctx : CancelCtx) (err : RtErr)
  | unpinSub (ctx : CancelCtx) (err : RtErr)
  -- the rest of `lely_rtt_sdo_request_cancel`
  | wake (ctx : CancelCtx) (err : RtErr)
  | callbackRelease (ctx : CancelCtx) (err : RtErr)
  -- `lely_rtt_sdo_request_destroy`
  | destroyLoad
  | destroyRefs
  | destroyFree
  | destroyed
  deriving DecidableEq

/-- The next atomic step of the thread that waits for one request. -/
inductive WaiterPc where
  | idle
  | isNew
  | isDone
  | receive
  | recheck
  deriving DecidableEq, Repr

/-- The next atomic step of a thread that posts other commands. -/
inductive PosterPc (ι κ : Type) where
  | idle
  | posting (command : Command ι κ) (pc : PostPc)
  deriving DecidableEq

/-- The thread that stops the run: a start that timed out, or `lely_rtt_runtime_stop`. -/
inductive ControlPc where
  | idle
  | latch
  | quiesce
  | stop
  deriving DecidableEq, Repr

/--
The state shared between the owner and the application threads. `hist`, `sent` and `returned` are
history: what was done to each request, every command that entered the queue, and what each call of
`lely_rtt_master_command_post` returned.
-/
structure Shared (ι κ : Type) where
  heap : ι → Request ι
  hist : ι → List ReqEvent
  app : ι → AppPc
  waiter : ι → WaiterPc
  poster : κ → PosterPc ι κ
  control : ControlPc
  commandRefs : Int
  commandQuiescing : Bool
  commandStopLatched : Bool
  callbackRefs : Int
  callbackQuiescing : Bool
  commandMq : Option (List (Entry ι κ))
  sent : List (Entry ι κ)
  returned : Tid ι κ → List (Command ι κ × RtErr)
  eventCommand : Bool
  eventStop : Bool
  sdoNextRequestId : BitVec 32
  sdoCancelRefs : Int
  localNodeId : Nat

namespace Shared

variable {ι κ : Type} [DecidableEq ι] [DecidableEq κ]

/-- The commands in the queue; none when there is no queue. -/
def queue (sh : Shared ι κ) : List (Entry ι κ) :=
  sh.commandMq.getD []

def setApp (sh : Shared ι κ) (r : ι) (pc : AppPc) : Shared ι κ :=
  { sh with app := Function.update sh.app r pc }

def setWaiter (sh : Shared ι κ) (r : ι) (pc : WaiterPc) : Shared ι κ :=
  { sh with waiter := Function.update sh.waiter r pc }

def setPoster (sh : Shared ι κ) (i : κ) (pc : PosterPc ι κ) : Shared ι κ :=
  { sh with poster := Function.update sh.poster i pc }

def modify (sh : Shared ι κ) (r : ι) (f : Request ι → Request ι) : Shared ι κ :=
  { sh with heap := Function.update sh.heap r (f (sh.heap r)) }

def setState (sh : Shared ι κ) (r : ι) (st : ReqState) : Shared ι κ :=
  sh.modify r fun request => { request with state := st }

def setCompletionRefs (sh : Shared ι κ) (r : ι) (refs : Nat) : Shared ι κ :=
  sh.modify r fun request => { request with completionRefs := refs }

/-- `rt_event_send(&request->completion, LELY_RTT_SDO_EVENT_DONE)` -/
def sendCompletion (sh : Shared ι κ) (r : ι) : Shared ι κ :=
  sh.modify r fun request => { request with completion := true }

def note (sh : Shared ι κ) (r : ι) (e : ReqEvent) : Shared ι κ :=
  { sh with hist := Function.update sh.hist r (sh.hist r ++ [e]) }

def noteReturn (sh : Shared ι κ) (tid : Tid ι κ) (command : Command ι κ) (err : RtErr)
    : Shared ι κ :=
  { sh with returned := Function.update sh.returned tid (sh.returned tid ++ [(command, err)]) }

end Shared

end LelyRtt
