import LelyRtt.Owner.Op

/-!
This module contains the owner's SDO code: completion, channel selection and transfer start, the
per-node FIFOs, dispatch, cancellation and reaping. The functions carry the names of their C
originals without the `lely_rtt_master_` prefix.
-/

namespace LelyRtt

open Conc

variable {ι κ : Type} [DecidableEq ι] [DecidableEq κ]

/-- Code that the owner thread runs. -/
abbrev Owner (ι κ : Type) (α : Type) : Type 1 := Prog (@Op.Res ι κ) α

/-- Run one operation. -/
def exec (o : Op ι κ) : Owner ι κ o.Res := .op o .ret

/-- `lely_rtt_master_sdo_complete` -/
def sdoComplete (r : ι) (status : CompletionStatus) (err : RtErr) (ac : BitVec 32)
    : Owner ι κ Unit := do
  let state : ReqState ← exec (.loadState r)
  if state.terminal then
    pure ()
  else do
    exec (.setResult r status err ac)
    let _requestId ← exec (.read r)
    Prog.loop state attempt
where
  attempt (state : ReqState) : Owner ι κ (ReqState ⊕ Unit) :=
    if state.terminal then
      pure (.inr ())
    else if state.pinned then do
      let request : Request ι ← exec (.read r)
      let staged : ReqState :=
        if state = .activeCancelPinned then .activeCancelDone else .pendingCancelDone
      -- pin the runtime before the canceling thread can see the staged result
      if request.runtime then exec (.addCancelRefs 1) else pure ()
      let found : Option ReqState ← exec (.casState r state staged)
      match found with
      | none => pure (.inr ())
      | some expected => do
        if request.runtime then exec (.addCancelRefs (-1)) else pure ()
        pure (.inl expected)
    else do
      exec (.storeCompletionRefs r 1)
      let found : Option ReqState ← exec (.casState r state .done)
      match found with
      | none => do
        exec (.sendCompletion r)
        exec (.storeCompletionRefs r 0)
        pure (.inr ())
      | some expected => do
        exec (.storeCompletionRefs r 0)
        pure (.inl expected)

/-- `lely_rtt_master_sdo_uses_predefined` -/
def sdoUsesPredefined (misc : Misc κ) (node : Nat) : Bool :=
  node ≠ 0 ∧ node ≤ numNodes ∧ misc.sdoChannel node = channelPredefined

/-- The Client-SDO that a node is configured to use. -/
def Misc.chan (misc : Misc κ) (node : Nat) : Chan :=
  if misc.sdoChannel node = channelPredefined then
    .predefined node
  else
    .custom (misc.sdoChannel node)

/-- An event writes the gate. -/
def Misc.event (misc : Misc κ) (e : GateEvent) : Misc κ :=
  { misc with gate := misc.gate.apply e, gateLog := misc.gateLog ++ [e] }

def setStopPending (node : Nat) (pending : Bool) : Owner ι κ Unit :=
  exec (.setMisc fun misc =>
    { misc with sdoStopPending := Function.update misc.sdoStopPending node pending })

/-- `runtime->sdo_active[node] == request`, and then the slot is released. -/
def sdoReleaseActive (r : ι) (node : Nat) : Owner ι κ Unit := do
  let own : Own ι κ ← exec .own
  if node ≤ numNodes ∧ own.sdoActive node = some r then do
    exec (.setActive node none)
    if sdoUsesPredefined own.misc node then setStopPending node true else pure ()
  else
    pure ()

/-- `lely_rtt_master_sdo_finish_protocol` -/
def sdoFinishProtocol (r : ι) (ac : BitVec 32) : Owner ι κ Unit := do
  let request : Request ι ← exec (.read r)
  sdoReleaseActive r request.nodeId
  let request : Request ι ← exec (.read r)
  if request.cancelRequested then
    sdoComplete r .canceled .ok ac
  else if ac ≠ 0 then
    sdoComplete r .abort .ok ac
  else
    sdoComplete r .ok .ok 0

/-- `lely_rtt_master_sdo_dn_con` -/
def sdoDnCon (r : ι) (ac : BitVec 32) : Owner ι κ Unit := do
  let request : Request ι ← exec (.read r)
  if request.runtime then sdoFinishProtocol r ac else pure ()

/-- `lely_rtt_master_sdo_up_con`. `alloc` is whether `rt_malloc` finds room for the copy. -/
def sdoUpCon (r : ι) (ac : BitVec 32) (data : List UInt8) (alloc : Bool) : Owner ι κ Unit := do
  let request : Request ι ← exec (.read r)
  if !request.runtime then
    pure ()
  else if ac = 0 ∧ data ≠ [] ∧ !alloc then do
    sdoReleaseActive r request.nodeId
    sdoComplete r .localError .nomem 0
  else do
    if ac = 0 then
      exec (.setBuffer r (if data ≠ [] then some data else none) data.length)
    else
      pure ()
    sdoFinishProtocol r ac

/-- The confirmation that a transfer was started with. -/
def sdoCon (r : ι) (ac : BitVec 32) (data : List UInt8) (alloc : Bool) : Owner ι κ Unit := do
  let request : Request ι ← exec (.read r)
  match request.operation with
  | .upload => sdoUpCon r ac data alloc
  | .download => sdoDnCon r ac

/--
`co_csdo_abort_req`: a running transfer is confirmed with the abort code before the call returns,
and the Client-SDO is idle when the confirmation runs.
-/
def csdoAbortReq (chan : Chan) (ac : BitVec 32) : Owner ι κ Unit := do
  let own : Own ι κ ← exec .own
  match own.csdo chan with
  | some (.busy r) => do
    exec (.setCsdo chan (some .idle))
    sdoCon r ac [] false
  | some .foreign => exec (.setCsdo chan (some .idle))
  | _ => pure ()

/-- `co_csdo_stop` -/
def csdoStop (chan : Chan) : Owner ι κ Unit := do
  let own : Own ι κ ← exec .own
  match own.csdo chan with
  | none | some .stopped => pure ()
  | some _ => do
    csdoAbortReq chan acNoSdo
    exec (.setCsdo chan (some .stopped))

/-- `co_csdo_destroy` -/
def csdoDestroy (chan : Chan) : Owner ι κ Unit := do
  csdoStop chan
  exec (.setCsdo chan none)

/-- The Client-SDO exists and runs a transfer: `sdo && !co_csdo_is_idle && !co_csdo_is_stopped`. -/
def csdoRunning (csdo : Option (Csdo ι)) : Bool :=
  match csdo with
  | some (.busy _) | some .foreign => true
  | _ => false

/-- `lely_rtt_master_sdo_get_client` without creation: the channel, if its Client-SDO exists. -/
def sdoGetClient (own : Own ι κ) (node : Nat) : Option Chan :=
  if own.misc.masterNmt ∧ node ≠ 0 ∧ node ≤ numNodes then
    let chan := own.misc.chan node
    if (own.misc.sdoChannel node = channelPredefined → own.misc.canNet)
        ∧ (own.csdo chan).isSome then
      some chan
    else
      none
  else
    none

/-- Abort the transfer that runs on the node's Client-SDO, if any. -/
def sdoAbortRunning (node : Nat) : Owner ι κ Unit := do
  let own : Own ι κ ← exec .own
  match sdoGetClient own node with
  | some chan => if csdoRunning (own.csdo chan) then csdoAbortReq chan acNoSdo else pure ()
  | none => pure ()

/--
The Client-SDO for a transfer that is about to start, or the local error. `pick` is whether
`co_csdo_create` succeeds, and what `lely_rtt_master_sdo_validate_custom_channel_set` decides.
-/
def sdoSelectClient (node : Nat) : Owner ι κ (Chan ⊕ RtErr) := do
  let own : Own ι κ ← exec .own
  if sdoUsesPredefined own.misc node then
    if !own.misc.masterNmt ∨ !own.misc.canNet then
      pure (.inr .error)
    else if (own.csdo (.predefined node)).isSome then
      pure (.inl (.predefined node))
    else do
      let created : Bool ← exec .pick
      if created then do
        exec (.setCsdo (.predefined node) (some .idle))
        pure (.inl (.predefined node))
      else
        pure (.inr .error)
  else do
    let valid : Bool ← exec .pick
    let chan : Chan := .custom (own.misc.sdoChannel node)
    if valid ∧ own.misc.masterNmt ∧ (own.csdo chan).isSome then
      pure (.inl chan)
    else
      pure (.inr .inval)

/-- Get the selected Client-SDO ready: start a stopped predefined one, reject a stopped custom one. -/
def sdoPrepareClient (node : Nat) (chan : Chan) : Owner ι κ (Option RtErr) := do
  let own : Own ι κ ← exec .own
  let stopped : Bool := own.csdo chan = some .stopped
  if sdoUsesPredefined own.misc node then
    if stopped then do
      let started : Bool ← exec .pick
      if started then do
        exec (.setCsdo chan (some .idle))
        setStopPending node false
        pure none
      else
        pure (some .error)
    else do
      setStopPending node false
      pure none
  else if stopped then
    pure (some .busy)
  else
    pure none

/--
`co_csdo_up_req`, `co_csdo_blk_up_req`, `co_csdo_dn_req` or `co_csdo_blk_dn_req` for the request.
The answer is whether the function returns -1.
-/
def csdoRequest (r : ι) (chan : Chan) : Owner ι κ Bool := do
  let _request ← exec (.read r)
  exec (.start r)
  let outcome : StartOutcome ← exec .outcome
  match outcome with
  | .failed => pure true
  | .started => do
    exec (.setCsdo chan (some (.busy r)))
    pure false
  | .confirmed ac data alloc failed => do
    sdoCon r ac data alloc
    pure failed

/-- `lely_rtt_master_sdo_start_active` -/
def sdoStartActive (r : ι) : Owner ι κ Unit := do
  let request : Request ι ← exec (.read r)
  let node : Nat := request.nodeId
  let client : Chan ⊕ RtErr ← sdoSelectClient node
  match client with
  | .inr err => sdoComplete r .localError err 0
  | .inl chan => do
    let rejected : Option RtErr ← sdoPrepareClient node chan
    match rejected with
    | some err => sdoComplete r .localError err 0
    | none => do
      let own : Own ι κ ← exec .own
      if own.csdo chan ≠ some .idle then
        sdoComplete r .localError .busy 0
      else do
        exec (.setActive node (some r))
        let failed : Bool ← csdoRequest r chan
        let own : Own ι κ ← exec .own
        if failed ∧ own.sdoActive node = some r then do
          exec (.setActive node none)
          if sdoUsesPredefined own.misc node then setStopPending node true else pure ()
          sdoComplete r .localError .error 0
        else
          pure ()

/-- `lely_rtt_master_sdo_claim` -/
def sdoClaim (r : ι) (desired : ReqState) : Owner ι κ Bool := do
  let found : Option ReqState ← exec (.casState r .queued desired)
  match found with
  | none => pure true
  | some expected => do
    if expected = .cancelPending then do
      exec (.setCancelRequested r)
      sdoComplete r .canceled .ok acNoSdo
    else
      pure ()
    pure false

/-- `lely_rtt_master_sdo_node_available` -/
def sdoNodeAvailable (misc : Misc κ) (node : Nat) : Bool :=
  misc.masterNmt ∧ misc.canNet ∧ node ≠ 0 ∧ node ≤ numNodes ∧ !misc.gate.suspended node
    ∧ !misc.booting node ∧ misc.cfgActive node = none

/-- The walk of `lely_rtt_master_sdo_pending_append` to the tail; `none` when the FIFO is full. -/
def sdoPendingTail (cfg : BuildConfig) (node : Nat) : Owner ι κ (Option (Option ι)) := do
  let own : Own ι κ ← exec .own
  Prog.loop (own.sdoPending node, (none : Option ι), 0) walk
where
  walk (s : Option ι × Option ι × Nat)
      : Owner ι κ ((Option ι × Option ι × Nat) ⊕ Option (Option ι)) :=
    match s with
    | (none, tail, _) => pure (.inr (some tail))
    | (some cursor, _, count) =>
      if count + 1 ≥ cfg.sdoQueueDepth then
        pure (.inr none)
      else do
        let request : Request ι ← exec (.read cursor)
        pure (.inl (request.next, some cursor, count + 1))

/-- `lely_rtt_master_sdo_pending_append` -/
def sdoPendingAppend (cfg : BuildConfig) (r : ι) : Owner ι κ Bool := do
  let request : Request ι ← exec (.read r)
  let tail : Option (Option ι) ← sdoPendingTail cfg request.nodeId
  match tail with
  | none => pure false
  | some tail => do
    let claimed : Bool ← sdoClaim r .pending
    if claimed then do
      exec (.setNext r none)
      match tail with
      | some tail => exec (.setNext tail (some r))
      | none => exec (.setPending request.nodeId (some r))
      pure true
    else
      pure true

/-- `lely_rtt_master_sdo_dispatch` -/
def sdoDispatch (cfg : BuildConfig) (r : ι) : Owner ι κ Unit := do
  let request : Request ι ← exec (.read r)
  let node : Nat := request.nodeId
  if node = 0 ∨ node > numNodes then
    pure ()
  else do
    let own : Own ι κ ← exec .own
    if !sdoNodeAvailable own.misc node then do
      let claimed : Bool ← sdoClaim r .active
      if claimed then sdoComplete r .localError .busy 0 else pure ()
    else if (own.sdoActive node).isSome ∨ (own.sdoPending node).isSome then do
      let appended : Bool ← sdoPendingAppend cfg r
      if appended then
        pure ()
      else do
        let claimed : Bool ← sdoClaim r .active
        if claimed then sdoComplete r .localError .busy 0 else pure ()
    else do
      let claimed : Bool ← sdoClaim r .active
      if claimed then sdoStartActive r else pure ()

/-- `*link`, where `link` points to the list head or into the request before it. -/
def readLink (node : Nat) (prev : Option ι) : Owner ι κ (Option ι) :=
  match prev with
  | none => do
    let own : Own ι κ ← exec .own
    pure (own.sdoPending node)
  | some prev => do
    let request : Request ι ← exec (.read prev)
    pure request.next

def writeLink (node : Nat) (prev : Option ι) (request : Option ι) : Owner ι κ Unit :=
  match prev with
  | none => exec (.setPending node request)
  | some prev => exec (.setNext prev request)

/-- `lely_rtt_master_sdo_cancel_pending` -/
def sdoCancelPending (node : Nat) (requestId : BitVec 32) : Owner ι κ Bool :=
  Prog.loop (none : Option ι) walk
where
  walk (prev : Option ι) : Owner ι κ (Option ι ⊕ Bool) := do
    let cursor : Option ι ← readLink node prev
    match cursor with
    | none => pure (.inr false)
    | some r => do
      let request : Request ι ← exec (.read r)
      if request.requestId = requestId then do
        writeLink node prev request.next
        exec (.setNext r none)
        exec (.setCancelRequested r)
        sdoComplete r .canceled .ok acNoSdo
        pure (.inr true)
      else
        pure (.inl (some r))

/-- `lely_rtt_master_sdo_cancel_dispatch` -/
def sdoCancelDispatch (node : Nat) (requestId : BitVec 32) : Owner ι κ Unit :=
  if node = 0 ∨ node > numNodes then
    pure ()
  else do
    let own : Own ι κ ← exec .own
    match own.sdoActive node with
    | none => do
      let _found ← sdoCancelPending node requestId
      pure ()
    | some r => do
      let request : Request ι ← exec (.read r)
      if request.requestId ≠ requestId then do
        let _found ← sdoCancelPending node requestId
        pure ()
      else do
        exec (.setCancelRequested r)
        sdoAbortRunning node
        let own : Own ι κ ← exec .own
        if own.sdoActive node = some r then do
          exec (.setActive node none)
          if sdoUsesPredefined own.misc node then setStopPending node true else pure ()
          sdoComplete r .canceled .ok acNoSdo
        else
          pure ()

/-- `lely_rtt_master_sdo_cancel_queued` -/
def sdoCancelQueued (r : ι) : Owner ι κ Unit := do
  let state : ReqState ← exec (.loadState r)
  let code : Option (BitVec 32) ← Prog.loop state attempt
  match code with
  | none => pure ()
  | some ac => do
    exec (.setCancelRequested r)
    sdoComplete r .canceled .ok ac
where
  attempt (state : ReqState) : Owner ι κ (ReqState ⊕ Option (BitVec 32)) :=
    if state = .cancelPending then
      pure (.inr (some acNoSdo))
    else if state ≠ .queued then
      pure (.inr none)
    else do
      let found : Option ReqState ← exec (.casState r .queued .teardownPending)
      match found with
      | none => pure (.inr (some 0))
      | some expected => pure (.inl expected)

/-- The `while (pending)` loop of `lely_rtt_master_sdo_cancel_node` over a detached FIFO. -/
def sdoCancelDetached (head : Option ι) : Owner ι κ Unit :=
  Prog.loop head walk
where
  walk (pending : Option ι) : Owner ι κ (Option ι ⊕ Unit) :=
    match pending with
    | none => pure (.inr ())
    | some r => do
      let request : Request ι ← exec (.read r)
      exec (.setNext r none)
      exec (.setCancelRequested r)
      sdoComplete r .canceled .ok acNoSdo
      pure (.inl request.next)

/-- The body of `lely_rtt_master_sdo_cancel_node` for the active transfer of one node. -/
def sdoCancelActive (node : Nat) : Owner ι κ Unit := do
  let own : Own ι κ ← exec .own
  match own.sdoActive node with
  | none => pure ()
  | some r => do
    exec (.setCancelRequested r)
    sdoAbortRunning node
    let own : Own ι κ ← exec .own
    if own.sdoActive node = some r then do
      exec (.setActive node none)
      sdoComplete r .canceled .ok acNoSdo
    else
      pure ()

/-- The body of `lely_rtt_master_sdo_cancel_node` for one node. -/
def sdoCancelOne (node : Nat) : Owner ι κ Unit := do
  sdoCancelActive node
  let own : Own ι κ ← exec .own
  exec (.setPending node none)
  sdoCancelDetached (own.sdoPending node)
  if sdoUsesPredefined own.misc node then csdoStop (.predefined node) else pure ()
  setStopPending node false

/-- `lely_rtt_master_sdo_cancel_node` -/
def sdoCancelNode (node : Nat) : Owner ι κ Unit :=
  if node > numNodes then pure () else Prog.forEach sdoCancelOne (targets node)

/-- `lely_rtt_master_sdo_start_pending` -/
def sdoStartPending (node : Nat) : Owner ι κ Bool := do
  let own : Own ι κ ← exec .own
  if !sdoNodeAvailable own.misc node ∨ (own.sdoActive node).isSome then
    pure false
  else
    match own.sdoPending node with
    | none => pure false
    | some r => do
      let state : ReqState ← exec (.loadState r)
      if state = .cancelPending then do
        let request : Request ι ← exec (.read r)
        exec (.setPending node request.next)
        exec (.setNext r none)
        exec (.setCancelRequested r)
        sdoComplete r .canceled .ok acNoSdo
        pure false
      else do
        let found : Option ReqState ← exec (.casState r .pending .active)
        match found with
        | some _ => pure false
        | none => do
          let request : Request ι ← exec (.read r)
          exec (.setPending node request.next)
          exec (.setNext r none)
          sdoStartActive r
          let own : Own ι κ ← exec .own
          pure (own.sdoActive node).isNone

/-- The body of `lely_rtt_master_sdo_reap` for one node. -/
def sdoReapOne (node : Nat) : Owner ι κ Unit :=
  Prog.loop () fun _ => do
    let own : Own ι κ ← exec .own
    if (own.sdoActive node).isSome then
      pure (.inr ())
    else do
      if own.misc.sdoStopPending node then stopClient else pure ()
      let own : Own ι κ ← exec .own
      if own.misc.sdoStopPending node then
        pure (.inr ())
      else do
        let again : Bool ← sdoStartPending node
        if again then pure (.inl ()) else pure (.inr ())
where
  stopClient : Owner ι κ Unit := do
    let own : Own ι κ ← exec .own
    match own.csdo (.predefined node) with
    | none => setStopPending node false
    | some csdo => do
      if csdo = .idle then csdoStop (.predefined node) else pure ()
      let own : Own ι κ ← exec .own
      if own.csdo (.predefined node) = some .stopped then
        setStopPending node false
      else
        pure ()

/-- `lely_rtt_master_sdo_reap` -/
def sdoReap : Owner ι κ Unit :=
  Prog.forEach sdoReapOne (List.range' 1 numNodes)

/-- `lely_rtt_master_sdo_cancel_wait_idle` -/
def sdoCancelWaitIdle : Owner ι κ Unit :=
  Prog.loop () fun _ => do
    let refs : Int ← exec .loadCancelRefs
    if refs ≠ 0 then pure (.inl ()) else pure (.inr ())

/-- The last loop of `lely_rtt_master_sdo_fini` for one node. -/
def sdoFiniOne (node : Nat) : Owner ι κ Unit := do
  csdoDestroy (.predefined node)
  exec (.setActive node none)
  exec (.setPending node none)
  exec (.setMisc fun misc =>
    {
      misc.event (.fini node) with
        sdoStopPending := Function.update misc.sdoStopPending node false
    })

/-- `lely_rtt_master_sdo_fini` -/
def sdoFini : Owner ι κ Unit := do
  sdoCancelNode 0
  sdoCancelWaitIdle
  exec (.mark .cancelsIdle)
  Prog.forEach sdoFiniOne (List.range' 1 numNodes)

end LelyRtt
