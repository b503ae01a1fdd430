import LelyRtt.Sdo.History
import LelyRtt.Master.Threads

/-!
This module contains the protocol that the owner and the application thread of a request follow, for
one request: where the owner keeps the request, which states it may then be in, and what the program
point of the application thread says about it.
-/

namespace LelyRtt

/-- The states that a request may be in while the owner completes it. -/
inductive Ending where
  | act
  | pend
  | teardown
  deriving DecidableEq, Repr

/-- Where the owner keeps a request. -/
inductive Place where
  -- the owner holds no reference, apart from a command in the queue
  | away
  -- taken out of the queue
  | fresh (node : Nat)
  -- claimed for the FIFO of the node but not linked yet
  | joining (node : Nat) (cleared : Bool)
  | fifo (node : Nat)
  -- claimed at the head of the FIFO and still linked
  | promoted (node : Nat)
  -- claimed for a transfer
  | claimed (node : Nat)
  | active (node : Nat)
  -- in a FIFO that was detached from its node
  | detached
  -- out of every list, about to be completed
  | ending (kind : Ending) (written held : Bool)
  -- `DONE` was set by the owner, which has not returned its completion reference yet
  | published (sent : Bool)
  deriving DecidableEq, Repr

namespace Place

/-- The owner works on the request right now. -/
def inHand : Place → Bool
  | .fresh _ | .joining _ _ | .promoted _ | .claimed _ | .ending _ _ _ | .published _ => true
  | .away | .fifo _ | .active _ | .detached => false

def admits (place : Place) (st : ReqState) : Bool :=
  match place with
  | .away => st = .new ∨ st = .queued ∨ st = .cancelPending ∨ st.terminal
  | .fresh _ => st = .queued ∨ st = .cancelPending
  | .joining _ _ | .fifo _ | .detached | .ending .pend _ _ =>
    st = .pending ∨ st = .pendingCancelPinned ∨ st = .cancelPending
  | .promoted _ | .claimed _ | .active _ | .ending .act _ _ =>
    st = .active ∨ st = .activeCancelPinned
  | .ending .teardown _ _ => st = .teardownPending
  | .published _ => st = .done

/-- The node of the request, for the places that depend on it. -/
def node? : Place → Option Nat
  | .fresh node | .joining node _ | .fifo node | .promoted node | .claimed node | .active node =>
    some node
  | .away | .detached | .ending _ _ _ | .published _ => none

/-- The request is linked in a list. -/
def linked : Place → Bool
  | .fifo _ | .promoted _ | .detached => true
  | _ => false

/-- Only the owner's local variables refer to the request, if anything. -/
def loose : Place → Bool
  | .fifo _ | .promoted _ | .detached | .active _ => false
  | _ => true

/-- `completion_refs` was raised by the owner. -/
def holdsRefs : Place → Bool
  | .ending _ _ held => held
  | .published _ => true
  | _ => false

end Place

/-- The command is in the queue when the post has come this far. -/
def PostPc.sent : PostPc → Bool
  | .event | .release .ok => true
  | _ => false

namespace AppPc

/-- The post of the request is under way and its command is not in the queue. -/
def unsent : AppPc → Bool
  | .postCommand pc => !pc.sent
  | .postNew _ => true
  | _ => false

/-- The loop of a cancel call has not claimed the request. -/
def retrying : AppPc → Bool
  | .cancelLoad | .cancelPin _ | .cancelQueued => true
  | _ => false

/-- The states that the request may be in at a program point of its application thread. -/
def admits (pc : AppPc) (st : ReqState) : Bool :=
  match pc with
  | .postId _ | .postFill _ _ | .postQueued => st = .new
  | .postCommand pc =>
    if pc.sent then
      st ≠ .new ∧ st ≠ .cancelPending ∧ !st.pinned ∧ !st.staged
    else
      st = .queued
  | .postNew err => st = .queued ∧ err ≠ .ok
  | .postClear err => st = .new ∧ err ≠ .ok
  | .cancelIdent kind => st = kind.pinned ∨ st = kind.staged
  | .callbackLoad ctx | .callbackAdd ctx | .callbackCheck ctx | .callbackUndo ctx
  | .cancelCommand ctx _ | .unpin ctx _ => st = ctx.kind.pinned ∨ st = ctx.kind.staged
  | .unpinRead ctx _ | .unpinHold ctx _ | .unpinDone ctx _ => st = ctx.kind.staged
  | .unpinSend _ _ | .unpinClear _ _ | .unpinSub _ _ => st = .done
  | .destroyRefs | .destroyFree | .destroyed => st = .new ∨ st = .done
  | .idle | .postLocalId _ | .postState _ | .cancelLoad | .cancelPin _ | .cancelQueued
  | .wake _ _ | .callbackRelease _ _ | .destroyLoad => !st.pinned ∧ !st.staged

/-- The arguments of a post that is under way. -/
def args? : AppPc → Option PostArgs
  | .postLocalId args | .postState args | .postId args | .postFill args _ => some args
  | _ => none

/-- What a canceling thread has copied from the request, as long as it may still use it. -/
def ctx? : AppPc → Option CancelCtx
  | .callbackLoad ctx | .callbackAdd ctx | .callbackCheck ctx | .callbackUndo ctx
  | .cancelCommand ctx _ | .unpin ctx _ | .unpinRead ctx _ | .unpinHold ctx _ | .unpinDone ctx _
  | .unpinSend ctx _ | .unpinClear ctx _ | .unpinSub ctx _ => some ctx
  | _ => none

/-- The canceling thread has published a staged result and still holds the pin on the runtime. -/
def publishing : AppPc → Option CancelCtx
  | .unpinSend ctx _ | .unpinClear ctx _ | .unpinSub ctx _ => some ctx
  | _ => none

/-- The owner cannot hold the request at this program point. -/
def alone (pc : AppPc) : Bool :=
  pc.unsent ∨ pc.publishing.isSome ∨ pc = .destroyFree ∨ pc = .destroyed

/-- The cancel of a pending request was admitted and is about to return. -/
def admitted : AppPc → Bool
  | .wake ctx err | .callbackRelease ctx err => ctx.kind = .pending ∧ err = .ok
  | _ => false

end AppPc

/-- The result of a request that was canceled before its transfer. -/
def Request.Canceled {ι : Type} (request : Request ι) : Prop :=
  request.completionStatus = .canceled ∧ request.localError = .ok ∧ request.abortCode = acNoSdo

/-- A cancel call that claimed the request before its transfer has returned `RT_EOK`. -/
def canceledEarly (hist : List ReqEvent) : Prop :=
  .cancelRet (some .queued) .ok ∈ hist ∨ .cancelRet (some .pending) .ok ∈ hist

/-- How far the completion must have come. -/
def Completion.Fits (place : Place) (pc : AppPc) (st : ReqState) (c : Completion) : Prop :=
  if st = .done then
    match place with
    | .published false => c = .set .owner
    | .published true => c = .sent .owner
    | _ =>
      match pc with
      | .unpinSend _ _ => c = .set .app
      | .unpinClear _ _ => c = .sent .app
      | _ => ∃ who, c = .closed who
  else
    c = .unset

/--
One request between the owner and its application thread. `queued` is whether its command is in the
queue and `started` whether a transfer was started for it.
-/
structure ReqOk {ι : Type} (place : Place) (pc : AppPc) (request : Request ι)
    (hist : List ReqEvent) (queued started : Prop) : Prop where
  place_admits : place.admits request.state
  pc_admits : pc.admits request.state
  args_valid : ∀ args, pc.args? = some args → args.valid
  ctx_eq : ∀ ctx, pc.ctx? = some ctx →
    ctx.runtime = true ∧ ctx.nodeId = request.nodeId ∧ ctx.requestId = request.requestId
  filled : request.state ≠ .new ∧ request.state ≠ .done ∨ pc = .postQueued →
    request.runtime = true ∧ request.nodeId ≠ 0 ∧ request.nodeId ≤ numNodes
  node_eq : ∀ node, place.node? = some node → request.nodeId = node
  refs_eq : place.holdsRefs → request.completionRefs = 1
  next_eq : ∀ node, place = .joining node true → request.next = none
  alone_away : pc.alone → place = .away
  queued_iff : queued ↔ place = .away
    ∧ (request.state = .queued ∨ request.state = .cancelPending) ∧ pc.unsent = false
  completion_fits : (completion hist).Fits place pc request.state
  posted : .postRet .ok ∈ hist → request.state ≠ .new ∧ pc.unsent = false
  ending_canceled : ∀ held, place = .ending .pend true held → request.Canceled
  staged_canceled : request.state = .pendingCancelDone → request.Canceled
  publishing_canceled : ∀ ctx, pc.publishing = some ctx → ctx.kind = .pending →
    request.Canceled ∧ ¬started
  early : canceledEarly hist ∨ pc.admitted →
    (request.state = .cancelPending ∨ request.state = .done ∧ request.Canceled) ∧ ¬started
  started_active : started → request.state = .active ∨ request.state = .activeCancelPinned
    ∨ request.state = .activeCancelDone ∨ request.state = .done

end LelyRtt
