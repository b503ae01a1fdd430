import LelyRtt.Owner.Sdo

/-!
This module contains the rest of the owner thread: NMT and configuration handling as far as it
arbitrates SDO requests, the callbacks that Lely runs, command dispatch, the cleanup and the owner
loop itself.
-/

namespace LelyRtt

open Conc

variable {ι κ : Type} [DecidableEq ι] [DecidableEq κ]

def setGate (e : GateEvent) : Owner ι κ Unit :=
  exec (.setMisc (·.event e))

/-- `lely_rtt_master_sdo_before_boot` -/
def sdoBeforeBoot (node : Nat) : Owner ι κ Unit :=
  if node = 0 ∨ node > numNodes then
    pure ()
  else do
    sdoCancelNode node
    csdoDestroy (.predefined node)
    setGate (.beforeBoot node)

/-- `lely_rtt_master_sdo_on_nmt_state` -/
def sdoOnNmtState (node : Nat) (state : Nat) : Owner ι κ Unit :=
  if node = 0 ∨ node > numNodes then
    pure ()
  else do
    if state = stStop then sdoCancelNode node else pure ()
    exec (.setMisc fun misc =>
      misc.event (.state node state (misc.masterNmt && misc.booting node)))

/-- `lely_rtt_master_boot_ind`. The snapshots it publishes are not read by owner code here. -/
def bootInd (node : Nat) (st : Nat) : Owner ι κ Unit :=
  if node = 0 ∨ node > numNodes then
    pure ()
  else do
    setGate (.bootComplete node (untoggle st))
    exec (.setMisc fun misc =>
      { misc with bootResultValid := Function.update misc.bootResultValid node true })

def setBooting (node : Nat) (booting : Bool) : Owner ι κ Unit :=
  exec (.setMisc fun misc => { misc with booting := Function.update misc.booting node booting })

/--
`co_nmt_on_st`: a Boot-up makes the Master request the boot of the node, which may be refused, and
which may complete before the call returns.
-/
def nmtOnSt (node : Nat) (st : Nat) (boot : BootOutcome) : Owner ι κ Unit := do
  let own : Own ι κ ← exec .own
  if node = 0 ∨ node > numNodes ∨ st ≠ stBootup ∨ node = own.misc.localId ∨ own.misc.booting node then
    pure ()
  else
    match boot with
    | .refused => pure ()
    | .started => setBooting node true
    | .finished state => do
      setBooting node true
      setBooting node false
      bootInd node state

/-- `lely_rtt_master_state_ind` for a remote node. -/
def remoteStateInd (node : Nat) (st : Nat) (boot : BootOutcome) : Owner ι κ Unit := do
  let state : Nat := untoggle st
  let own : Own ι κ ← exec .own
  if node ≠ 0 ∧ node ≤ numNodes ∧ node ≠ own.misc.localId ∧ state = stBootup then do
    exec (.setMisc fun misc =>
      { misc with bootResultValid := Function.update misc.bootResultValid node false })
    sdoBeforeBoot node
  else
    pure ()
  nmtOnSt node st boot
  let own : Own ι κ ← exec .own
  if node = own.misc.localId ∨ node = 0 ∨ node > numNodes then
    pure ()
  else if state = stBootup ∧ own.misc.bootResultValid node then
    -- the boot completed inside `co_nmt_on_st`, its indication has the last word
    pure ()
  else
    sdoOnNmtState node state

/-- `lely_rtt_master_cfg_on_local_nmt_state`: the requests are retired at state 0 and Pre-operational. -/
def cfgOnLocalNmtState (state : Nat) : Owner ι κ Unit :=
  if state ≠ 0 ∧ state ≠ stPreop then
    pure ()
  else
    exec (.setMisc fun misc => { misc with cfgActive := fun _ => none })

/-- `co_nmt_slaves_fini`: Lely drops every running boot-slave process. -/
def nmtSlavesFini : Owner ι κ Unit :=
  exec (.setMisc fun misc => { misc with booting := fun _ => false })

/-- The local node enters a state. State 0 is indicated on a reset, after `co_nmt_slaves_fini`. -/
def localStateInd (st : Nat) : Owner ι κ Unit := do
  if untoggle st = 0 then nmtSlavesFini else pure ()
  cfgOnLocalNmtState (untoggle st)

/--
The local node enters Pre-operational: `co_nmt_slaves_fini`, the indication, and then
`co_nmt_slaves_boot` requests the boot of the assigned slaves.
-/
def localPreop (boots : List Nat) : Owner ι κ Unit := do
  nmtSlavesFini
  cfgOnLocalNmtState stPreop
  let own : Own ι κ ← exec .own
  exec (.setMisc fun misc =>
    {
      misc with
        booting := fun node =>
          node ∈ boots ∧ node ≠ 0 ∧ node ≤ numNodes ∧ node ≠ own.misc.localId ∨ misc.booting node
    })

/-- `lely_rtt_master_cfg_complete` as far as it releases the node. -/
def cfgComplete (c : κ) (node : Nat) : Owner ι κ Unit := do
  let own : Own ι κ ← exec .own
  if node ≤ numNodes ∧ own.misc.cfgActive node = some c then
    exec (.setMisc fun misc =>
      { misc with cfgActive := Function.update misc.cfgActive node none })
  else
    pure ()

/--
`lely_rtt_master_cfg_dispatch`. `pick` is what the checks on the object dictionary and on the
configuration sources decide.
-/
def cfgDispatch (c : κ) (node : Nat) : Owner ι κ Unit :=
  if node = 0 ∨ node > numNodes then
    pure ()
  else do
    let own : Own ι κ ← exec .own
    if !own.misc.masterNmt ∨ !own.misc.canNet then
      cfgComplete c node
    else if (own.misc.cfgActive node).isSome then
      -- the request that is active keeps the node
      pure ()
    else do
      let accepted : Bool ← exec .pick
      if !accepted then
        cfgComplete c node
      else if own.misc.booting node then
        cfgComplete c node
      else do
        sdoCancelNode node
        exec (.setMisc fun misc =>
          { misc with cfgActive := Function.update misc.cfgActive node (some c) })
        let outcome : CfgOutcome ← exec .cfgOutcome
        match outcome with
        | .started => pure ()
        | .failed => cfgComplete c node
        | .confirmed failed => do
          cfgComplete c node
          if failed then cfgComplete c node else pure ()

/-- `lely_rtt_master_cfg_con` for the request that is active on the node. -/
def cfgCon (node : Nat) : Owner ι κ Unit := do
  let own : Own ι κ ← exec .own
  match own.misc.cfgActive node with
  | none => pure ()
  | some c => cfgComplete c node

/-- `lely_rtt_master_command_dispatch_nmt`. `pick` is whether `co_nmt_cs_req` accepts the command. -/
def commandDispatchNmt (node : Nat) (command : NmtCommand) : Owner ι κ Unit := do
  let own : Own ι κ ← exec .own
  if !own.misc.masterNmt then
    pure ()
  else do
    match command with
    | .start | .preop => pure ()
    | .stop | .resetNode | .resetComm => sdoCancelNode node
    let accepted : Bool ← exec .pick
    if accepted then setGate (.command node command) else pure ()

/-- One thing that Lely may run from the owner's event loop. -/
def lelyRun (work : LelyWork) : Owner ι κ Unit := do
  let own : Own ι κ ← exec .own
  match work with
  | .none => pure ()
  | .confirm chan ac data alloc =>
    match own.csdo chan with
    | some (.busy r) => do
      exec (.setCsdo chan (some .idle))
      sdoCon r ac data alloc
    | _ => pure ()
  | .remoteState node st boot =>
    if own.misc.masterNmt ∧ node ≠ own.misc.localId then remoteStateInd node st boot else pure ()
  | .bootDone node st =>
    if own.misc.masterNmt ∧ own.misc.booting node then do
      setBooting node false
      bootInd node st
    else
      pure ()
  | .cfgDone node => if own.misc.masterNmt then cfgCon node else pure ()
  | .localState st =>
    if own.misc.masterNmt ∧ untoggle st ≠ stPreop then localStateInd st else pure ()
  | .localPreop boots => if own.misc.masterNmt then localPreop boots else pure ()
  | .customDestroy number => csdoDestroy (.custom number)
  | .customCreate number =>
    match own.csdo (.custom number) with
    | none => exec (.setCsdo (.custom number) (some .idle))
    | some _ => pure ()
  | .customBegin number =>
    match own.csdo (.custom number) with
    | some .idle => exec (.setCsdo (.custom number) (some .foreign))
    | _ => pure ()
  | .customEnd number =>
    match own.csdo (.custom number) with
    | some .foreign => exec (.setCsdo (.custom number) (some .idle))
    | _ => pure ()

/-- `lely_rtt_drain_loop`: Lely runs callbacks until it has none left. -/
def drainLoop : Owner ι κ Unit :=
  Prog.loop () fun _ => do
    exec .between
    let work : LelyWork ← exec .work
    if work = .none then
      pure (.inr ())
    else do
      lelyRun work
      pure (.inl ())

/-- The switch of `lely_rtt_master_command_dispatch`. -/
def commandExecute (cfg : BuildConfig) (command : Command ι κ) : Owner ι κ Unit :=
  match command with
  | .nmt node command => commandDispatchNmt node command
  | .sdo r => sdoDispatch cfg r
  | .sdoCancel node requestId => sdoCancelDispatch node requestId
  | .cfg c node => cfgDispatch c node
  | .other => pure ()

/-- The batch of `lely_rtt_master_command_dispatch` with `count` commands to go. -/
def commandBatch (cfg : BuildConfig) (count : Nat) : Owner ι κ Unit :=
  match count with
  | 0 => pure ()
  | count + 1 => do
    exec .between
    let received : Option (Command ι κ) ← exec (.mqReceive .dispatch)
    match received with
    | none => pure ()
    | some command => do
      commandExecute cfg command
      commandBatch cfg count

/-- `lely_rtt_master_command_dispatch` -/
def commandDispatch (cfg : BuildConfig) : Owner ι κ Unit := do
  let exists_ : Bool ← exec .mqExists
  if exists_ then commandBatch cfg cfg.commandQueueDepth else pure ()

/-- `lely_rtt_master_command_admission_open` -/
def commandAdmissionOpen : Owner ι κ Unit := do
  let own : Own ι κ ← exec .own
  let exists_ : Bool ← exec .mqExists
  if !exists_ ∨ !own.misc.masterNmt then
    pure ()
  else do
    let latched : Bool ← exec .loadStopLatched
    if latched then
      pure ()
    else do
      exec (.storeQuiescing false)
      let latched : Bool ← exec .loadStopLatched
      if latched then exec (.storeQuiescing true) else pure ()

/-- `lely_rtt_master_command_quiesce_begin` -/
def commandQuiesceBegin : Owner ι κ Unit := do
  exec .storeStopLatched
  exec (.storeQuiescing true)

/-- `lely_rtt_master_command_wait_idle` -/
def commandWaitIdle : Owner ι κ Unit :=
  Prog.loop () fun _ => do
    let refs : Int ← exec .loadCommandRefs
    if refs ≠ 0 then pure (.inl ()) else pure (.inr ())

/-- The switch of `lely_rtt_master_command_fini`. Only SDO requests have a state to settle here. -/
def commandCancelQueued (command : Command ι κ) : Owner ι κ Unit :=
  match command with
  | .sdo r => sdoCancelQueued r
  | _ => pure ()

/-- The `while` loop of `lely_rtt_master_command_fini` that empties the queue. -/
def commandDrain : Owner ι κ Unit :=
  Prog.loop () fun _ => do
    exec .between
    let received : Option (Command ι κ) ← exec (.mqReceive .drain)
    match received with
    | none => pure (.inr ())
    | some command => do
      commandCancelQueued command
      pure (.inl ())

/-- `lely_rtt_master_command_fini` -/
def commandFini : Owner ι κ Unit := do
  commandQuiesceBegin
  commandWaitIdle
  let exists_ : Bool ← exec .mqExists
  if exists_ then commandDrain else pure ()
  exec (.mark .drained)
  sdoFini
  let exists_ : Bool ← exec .mqExists
  if exists_ then exec .mqDelete else pure ()

/-- `lely_rtt_callbacks_init` -/
def callbacksInit : Owner ι κ Unit := do
  exec .storeCallbackRefs
  exec (.storeCallbackQuiescing false)

/-- `lely_rtt_callbacks_wait_idle` -/
def callbacksWaitIdle : Owner ι κ Unit :=
  Prog.loop () fun _ => do
    let refs : Int ← exec .loadCallbackRefs
    if refs ≠ 0 then pure (.inl ()) else pure (.inr ())

/-- `lely_rtt_master_fini` as far as it concerns the NMT service. -/
def masterFini : Owner ι κ Unit := do
  exec (.setMisc fun misc =>
    { misc with masterNmt := false, booting := fun _ => false, cfgActive := fun _ => none })
  exec (.storeLocalNodeId 0)

/-- `lely_rtt_owner_cleanup` -/
def ownerCleanup : Owner ι κ Unit := do
  commandQuiesceBegin
  commandWaitIdle
  exec (.mark .commandsIdle)
  exec (.storeCallbackQuiescing true)
  commandFini
  exec (.mark .finished)
  callbacksWaitIdle
  masterFini
  exec (.setMisc fun misc => { misc with canNet := false })
  exec (.mark .exited)

/--
`lely_rtt_owner_init`. The picks are whether the steps before the callback state, the CAN network,
the configured Master and the command queue succeed, and whether a Master is configured at all.
-/
def ownerInit : Owner ι κ Bool := do
  let created : Bool ← exec .pick
  if !created then
    pure false
  else do
    callbacksInit
    let network : Bool ← exec .pick
    if !network then
      pure false
    else do
      exec (.setMisc fun misc => { misc with canNet := true })
      let configured : Bool ← exec .pick
      if configured then do
        exec (.setMisc fun misc => { misc with masterNmt := true })
        drainLoop
      else
        pure ()
      let ready : Bool ← exec .pick
      if !ready then
        pure false
      else do
        let own : Own ι κ ← exec .own
        if configured then exec (.storeLocalNodeId own.misc.localId) else pure ()
        let queue : Bool ← exec .pick
        if !queue then
          pure false
        else do
          exec .mqCreate
          drainLoop
          exec .pick

/-- One turn of the loop of `lely_rtt_owner_entry`; the answer is whether the loop goes on. -/
def ownerTurn (cfg : BuildConfig) : Owner ι κ Bool := do
  exec .between
  let stop : Bool ← exec .receive
  let failed : Bool ← exec .pick
  if failed ∨ stop then
    pure false
  else do
    drainLoop
    let failed : Bool ← exec .pick
    if failed then
      pure false
    else do
      commandDispatch cfg
      drainLoop
      sdoReap
      pure true

/-- `lely_rtt_owner_entry` -/
def ownerEntry (cfg : BuildConfig) : Owner ι κ Unit := do
  let ready : Bool ← ownerInit
  if ready then do
    exec (.mark .running)
    commandAdmissionOpen
    Prog.loop () fun _ => do
      let go : Bool ← ownerTurn cfg
      if go then pure (.inl ()) else pure (.inr ())
  else
    pure ()
  ownerCleanup

end LelyRtt
