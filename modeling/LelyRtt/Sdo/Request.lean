import LelyRtt.Basic

/-!
This module contains the SDO request object with its states, and the records of what was done to it.
A request is named by a reference of type `ι`.
-/

namespace LelyRtt

/-- `enum lely_rtt_sdo_request_state` -/
inductive ReqState where
  | new
  | queued
  | pending
  | cancelPending
  | teardownPending
  | pendingCancelPinned
  | pendingCancelDone
  | active
  | activeCancelPinned
  | activeCancelDone
  | done
  deriving DecidableEq, Repr, Inhabited

namespace ReqState

/-- A result is staged: only the canceling thread that holds the pin publishes it. -/
def staged (st : ReqState) : Bool :=
  st = pendingCancelDone ∨ st = activeCancelDone

/-- `DONE` or staged, the states on which `lely_rtt_master_sdo_complete` returns. -/
def terminal (st : ReqState) : Bool :=
  st = done ∨ st.staged

/-- A canceling thread holds the request. -/
def pinned (st : ReqState) : Bool :=
  st = pendingCancelPinned ∨ st = activeCancelPinned

end ReqState

/-- The two states a canceling thread can pin. -/
inductive PinKind where
  | pending
  | active
  deriving DecidableEq, Repr, Inhabited

namespace PinKind

def base : PinKind → ReqState
  | .pending => .pending
  | .active => .active

def pinned : PinKind → ReqState
  | .pending => .pendingCancelPinned
  | .active => .activeCancelPinned

def staged : PinKind → ReqState
  | .pending => .pendingCancelDone
  | .active => .activeCancelDone

end PinKind

inductive Operation where
  | upload
  | download
  deriving DecidableEq, Repr, Inhabited

inductive CompletionStatus where
  | ok
  | abort
  | canceled
  | localError
  deriving DecidableEq, Repr, Inhabited

/-- `struct lely_rtt_sdo_request`. `completion` is the bit of its embedded event. -/
structure Request (ι : Type) where
  completion : Bool := false
  state : ReqState := .new
  completionRefs : Nat := 0
  runtime : Bool := false
  requestId : BitVec 32 := 0
  operation : Operation := .upload
  nodeId : Nat := 0
  index : Nat := 0
  subindex : Nat := 0
  timeoutMs : Nat := 0
  blockTransfer : Bool := false
  blockPst : Nat := 0
  buffer : Option (List UInt8) := none
  size : Nat := 0
  completionStatus : CompletionStatus := .ok
  localError : RtErr := .ok
  abortCode : BitVec 32 := 0
  cancelRequested : Bool := false
  next : Option ι := none
  deriving DecidableEq

/-- The threads that touch a request: the owner and the application thread of the request. -/
inductive Who where
  | owner
  | app
  deriving DecidableEq, Repr

/--
What happened to a request. `cancelRet claimed err` is the return of a cancel call whose claiming
compare-exchange found the state `claimed`, if one succeeded.
-/
inductive ReqEvent where
  | result (who : Who)
  | setDone (who : Who)
  | sendDone (who : Who)
  | clearRefs (who : Who)
  | postRet (err : RtErr)
  | cancelRet (claimed : Option ReqState) (err : RtErr)
  | destroyRet (err : RtErr)
  | waitRet (err : RtErr)
  deriving DecidableEq, Repr

/-- The arguments of a post call. `alloc` is whether `rt_malloc` finds room for a payload. -/
structure PostArgs where
  operation : Operation
  nodeId : Nat
  index : Nat
  subindex : Nat
  data : Option (List UInt8)
  timeoutMs : Nat
  blockTransfer : Bool
  blockPst : Nat
  alloc : Bool
  deriving DecidableEq

namespace PostArgs

/-- The argument checks of `lely_rtt_runtime_post_sdo` that read no shared state. -/
def valid (args : PostArgs) : Bool :=
  args.nodeId ≠ 0 ∧ args.nodeId ≤ numNodes ∧ args.timeoutMs ≠ 0 ∧ args.timeoutMs ≤ 2147483647

/-- A download has a payload. -/
def hasData (args : PostArgs) : Bool :=
  args.operation = .upload ∨ (args.data.getD []) ≠ []

/-- `operation == LELY_RTT_SDO_DOWNLOAD ? copy : RT_NULL` -/
def payload (args : PostArgs) : Option (List UInt8) :=
  if args.operation = .download then args.data else none

/-- The fields that a post writes before it publishes the request. -/
def fill {ι : Type} (args : PostArgs) (id : BitVec 32) (request : Request ι) : Request ι :=
  {
    request with
      runtime := true
      requestId := id
      operation := args.operation
      nodeId := args.nodeId
      index := args.index
      subindex := args.subindex
      timeoutMs := args.timeoutMs
      blockTransfer := args.blockTransfer
      blockPst := args.blockPst
      buffer := args.payload
      size := (args.payload.getD []).length
      completionStatus := .localError
      localError := .ok
      abortCode := 0
      cancelRequested := false
      next := none
  }

end PostArgs

/-- The fields that a failed post resets. -/
def Request.clear {ι : Type} (request : Request ι) : Request ι :=
  { request with runtime := false, buffer := none, size := 0, next := none }

end LelyRtt
