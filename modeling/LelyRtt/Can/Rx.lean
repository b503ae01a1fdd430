import LelyRtt.Conc.Prog

/-!
This module contains the receive path of `can.c`: the conversion of a frame, the RX indication that
the driver calls, and the owner thread as far as it reads frames and waits for events.
-/

namespace LelyRtt.Can

open Conc

/-! ### Frames -/

/-- The options of the build and of the runtime that the conversion of a frame reads. -/
structure CanConfig where
  /-- `RT_CAN_USING_CANFD` -/
  rtCanFd : Bool
  /-- `PKG_LELY_USING_CANFD` -/
  lelyCanFd : Bool
  canFd : Bool
  canBrs : Bool
  /-- `can_fd_len_mode == LELY_RTT_CANFD_LEN_DLC` -/
  lenDlc : Bool
  rxBatch : Nat
  /-- `PKG_LELY_USING_MASTER` with command ingress -/
  commandIngress : Bool
  useStatusIndication : Bool

/-- `struct rt_can_msg` -/
structure RtCanMsg where
  ide : Bool
  id : Nat
  rtr : Bool
  fdFrame : Bool
  brs : Bool
  len : Nat
  data : List UInt8
  deriving DecidableEq, Repr

/-- `struct can_msg`; behind `data` its array holds zeros -/
structure CanMsg where
  id : Nat
  ide : Bool
  rtr : Bool
  fdf : Bool
  brs : Bool
  len : Nat
  data : List UInt8
  deriving DecidableEq, Repr

/-- `CAN_MASK_BID` -/
def maskBid : Nat := 0x7ff

/-- `CAN_MASK_EID` -/
def maskEid : Nat := 0x1fffffff

/-- `CAN_MAX_LEN` -/
def maxLen : Nat := 8

/-- `CANFD_MAX_LEN` -/
def fdMaxLen : Nat := 64

/-- `lely_rtt_can_dlc_to_len` -/
def dlcToLen (dlc : Nat) : Nat :=
  [0, 1, 2, 3, 4, 5, 6, 7, 8, 12, 16, 20, 24, 32, 48, 64].getD dlc 0

/-- The length of a CAN FD frame, `none` if the frame is rejected. -/
def fdLen (cfg : CanConfig) (src : RtCanMsg) : Option Nat :=
  if !cfg.lelyCanFd ∨ !cfg.canFd ∨ src.rtr then
    none
  else if cfg.lenDlc then
    let len := dlcToLen src.len
    if src.len > 15 ∨ len = 0 ∧ src.len ≠ 0 then none else some len
  else if src.len > fdMaxLen then
    none
  else
    some src.len

/-- `lely_rtt_can_from_rt` -/
def fromRt (cfg : CanConfig) (src : RtCanMsg) : Option CanMsg :=
  if src.id > (if src.ide then maskEid else maskBid) then
    none
  else if cfg.rtCanFd ∧ src.fdFrame then
    match fdLen cfg src with
    | none => none
    | some len =>
      if src.brs ∧ !cfg.canBrs then
        none
      else
        some
          {
            id := src.id, ide := src.ide, rtr := false, fdf := true, brs := src.brs,
            len := len, data := src.data.take len
          }
  else if src.len > maxLen then
    none
  else
    some
      {
        id := src.id, ide := src.ide, rtr := src.rtr, fdf := false, brs := false,
        len := src.len, data := if src.rtr then [] else src.data.take src.len
      }

/-! ### The driver -/

/-- The owner's bits of `runtime->event`. -/
structure Events where
  rxReady : Bool := false
  timerDue : Bool := false
  canStatus : Bool := false
  stop : Bool := false
  command : Bool := false
  deriving DecidableEq, Repr

/-- How far the driver is with the indication of a frame that it has appended. -/
inductive Indication where
  -- the driver has not yet looked for an indication function
  | appended
  -- `lely_rtt_can_rx_indicate` has been called
  | entered
  -- `lely_rtt_callback_acquire` has passed its first check and counted itself
  | counted
  -- the runtime is pinned
  | pinned
  | sent
  -- there was no indication function, or the runtime was not to be pinned
  | silent
  deriving DecidableEq, Repr

/-- `RX_READY` is still to be sent for the frame. -/
def Indication.Coming (indication : Indication) : Prop :=
  indication ≠ .sent ∧ indication ≠ .silent

instance (indication : Indication) : Decidable indication.Coming :=
  inferInstanceAs (Decidable (_ ∧ _))

/-- The state that the owner shares with the driver and the other threads. -/
structure Shared where
  /-- The driver's FIFO, oldest frame first. -/
  fifo : List RtCanMsg := []
  /-- The history of all frames that the driver has appended. -/
  arrived : List RtCanMsg := []
  /-- The indication of each of them. -/
  indications : List Indication := []
  events : Events := {}
  /-- `lely_rtt_can_rx_indicate` is installed at the device. -/
  rxIndicate : Bool := false
  /-- The runtime is in `lely_rtt_can_registry`. -/
  registered : Bool := false
  callbackQuiescing : Bool := false
  eventInitialized : Bool := true

/-- The driver receives a frame. -/
def Shared.append (sh : Shared) (frame : RtCanMsg) : Shared :=
  {
    sh with
      fifo := sh.fifo ++ [frame]
      arrived := sh.arrived ++ [frame]
      indications := sh.indications ++ [.appended]
  }

def Shared.raise (sh : Shared) (events : Events) : Shared :=
  {
    sh with
      events.rxReady := sh.events.rxReady || events.rxReady
      events.timerDue := sh.events.timerDue || events.timerDue
      events.canStatus := sh.events.canStatus || events.canStatus
      events.stop := sh.events.stop || events.stop
      events.command := sh.events.command || events.command
  }

/-- The next step of the indication, under the registry lock where the source takes it. -/
def Indication.next (sh : Shared) : Indication → Indication
  | .appended => if sh.rxIndicate then .entered else .silent
  | .entered => if sh.registered ∧ !sh.callbackQuiescing then .counted else .silent
  | .counted => if sh.callbackQuiescing then .silent else .pinned
  | .pinned => if sh.eventInitialized then .sent else .silent
  | .sent => .sent
  | .silent => .silent

/-- The indication of the frame `i` takes a step. -/
def Shared.indicate (sh : Shared) (i : Nat) : Shared :=
  let indication := (sh.indications.getD i .silent).next sh
  let sh' := { sh with indications := sh.indications.set i indication }
  if indication = .sent ∧ sh.indications.getD i .silent ≠ .sent then
    sh'.raise { rxReady := true }
  else
    sh'

/-- The steps of the driver and of the threads that send the owner's other events. -/
inductive EnvStep : Shared → Shared → Prop
  | append {sh : Shared} (frame : RtCanMsg) : EnvStep sh (sh.append frame)
  | indicate {sh : Shared} (i : Nat) : EnvStep sh (sh.indicate i)
  | raise {sh : Shared} (events : Events) : events.rxReady = false → EnvStep sh (sh.raise events)

/-! ### The owner -/

/-- The histories of the frames that the owner has read and of those it has offered to Lely. -/
structure Own where
  read : List RtCanMsg := []
  offered : List CanMsg := []

/-- What the owner runs beside the receive path; whether it succeeds is arbitrary. -/
inductive Work where
  | ioCtxCreate
  | evLoopCreate
  | timerInit
  -- find, open and configure the device and its filter
  | deviceSetup
  | statusIndication
  | controllerStart
  | chanCreate
  | canNetCreate
  | canNetStart
  | masterInit
  | masterCommandInit
  -- `runtime->runtime_error` is `RT_EOK`
  | errorCheck
  | timerAdvance
  | timerSyncCanNet
  | processStatus
  | drainLoop
  | admissionOpen
  | dispatch
  | reap
  | commandFini
  | callbacksWaitIdle
  | release
  deriving DecidableEq, Repr

/-- What `rt_event_recv` returns. -/
inductive Received where
  | events (events : Events)
  | timeout
  | error
  deriving DecidableEq, Repr

inductive Op where
  | work (work : Work)
  | callbacksInit
  | registryAdd
  | setRxIndicate (installed : Bool)
  -- `rt_device_read`
  | read
  -- `io_user_can_chan_on_msg`
  | onMsg (msg : CanMsg)
  | sendRxReady
  -- `rt_event_recv`
  | recv
  | quiesceBegin
  | registryRemove
  deriving DecidableEq, Repr

@[reducible]
def Op.Res : Op → Type
  | .work _ => Bool
  | .callbacksInit => Unit
  | .registryAdd => Unit
  | .setRxIndicate _ => Bool
  | .read => Option RtCanMsg
  | .onMsg _ => Bool
  | .sendRxReady => Unit
  | .recv => Received
  | .quiesceBegin => Unit
  | .registryRemove => Unit

/-- Whether an operation of the outside world succeeds, and how the wait for an event ends. -/
structure Input where
  ok : Bool := true
  timeout : Bool := false
  error : Bool := false
  deriving DecidableEq, Repr

/-- What an operation does, `none` where it blocks. -/
def Op.run (o : Op) (input : Input) (own : Own) (sh : Shared) : Option (o.Res × Own × Shared) :=
  match o with
  | .work _ => some (input.ok, own, sh)
  | .callbacksInit => some ((), own, { sh with callbackQuiescing := false })
  | .registryAdd => some ((), own, { sh with registered := true })
  | .setRxIndicate installed =>
    some (input.ok, own, if input.ok then { sh with rxIndicate := installed } else sh)
  | .read =>
    some (sh.fifo.head?, { own with read := own.read ++ sh.fifo.head?.toList },
      { sh with fifo := sh.fifo.tail })
  | .onMsg msg => some (input.ok, { own with offered := own.offered ++ [msg] }, sh)
  | .sendRxReady => some ((), own, sh.raise { rxReady := true })
  | .recv =>
    if input.error then
      some (.error, own, sh)
    else if input.timeout then
      some (.timeout, own, sh)
    else if sh.events = {} then
      none
    else
      some (.events sh.events, own, { sh with events := {} })
  | .quiesceBegin => some ((), own, { sh with callbackQuiescing := true })
  | .registryRemove => some ((), own, { sh with registered := false })

abbrev Owner (α : Type) := Prog Op.Res α

def exec (o : Op) : Owner o.Res := .op o .ret

/-- The loop of `lely_rtt_can_drain_rx` once `count` frames are read. -/
def drainFrame (cfg : CanConfig) (count : Nat) : Owner (Nat ⊕ Nat) :=
  if count < cfg.rxBatch then do
    let frame : Option RtCanMsg ← exec .read
    match frame with
    | none => pure (.inr count)
    | some frame =>
      match fromRt cfg frame with
      | none => pure (.inl (count + 1))
      | some msg => do
        let _ ← exec (.onMsg msg)
        pure (.inl (count + 1))
  else
    pure (.inr count)

/-- `lely_rtt_can_drain_rx` -/
def drainRx (cfg : CanConfig) : Owner Unit := do
  let count : Nat ← Prog.loop 0 (drainFrame cfg)
  if count = cfg.rxBatch then exec .sendRxReady else pure ()

/-- Steps of the initialization, which end it where they fail. -/
def workAll : List Work → Owner Bool
  | [] => pure true
  | work :: rest => do
    let ok : Bool ← exec (.work work)
    if ok then workAll rest else pure false

/-- `lely_rtt_can_init` -/
def canInit (cfg : CanConfig) : Owner Bool := do
  let setup : Bool ← exec (.work .deviceSetup)
  if !setup then
    pure false
  else do
    exec .registryAdd
    let installed : Bool ← exec (.setRxIndicate true)
    if !installed then
      pure false
    else do
      workAll (if cfg.useStatusIndication then
        [.statusIndication, .controllerStart, .chanCreate]
      else
        [.controllerStart, .chanCreate])

/-- `lely_rtt_owner_init` -/
def ownerInit (cfg : CanConfig) : Owner Bool := do
  let created : Bool ← workAll [.ioCtxCreate, .evLoopCreate]
  if !created then
    pure false
  else do
    exec .callbacksInit
    let timer : Bool ← exec (.work .timerInit)
    if !timer then
      pure false
    else do
      let can : Bool ← canInit cfg
      if !can then
        pure false
      else do
        let net : Bool ← exec (.work .canNetCreate)
        if !net then
          pure false
        else do
          let _ ← exec (.work .canNetStart)
          let master : Bool ← workAll [.masterInit, .masterCommandInit]
          if !master then
            pure false
          else do
            drainRx cfg
            let _ ← exec (.work .timerAdvance)
            let fine : Bool ← exec (.work .errorCheck)
            if !fine then
              pure false
            else do
              let _ ← exec (.work .processStatus)
              let _ ← exec (.work .drainLoop)
              pure true

/-- The steps of `lely_rtt_owner_entry` for the commands; whether the loop goes on. -/
def ownerCommands (cfg : CanConfig) : Owner Bool :=
  if cfg.commandIngress then do
    let _ ← exec (.work .drainLoop)
    let _ ← exec (.work .timerSyncCanNet)
    let fine : Bool ← exec (.work .errorCheck)
    if fine then do
      let _ ← exec (.work .dispatch)
      pure true
    else
      pure false
  else
    pure true

/-- `lely_rtt_can_process_status` under a condition -/
def processStatusIf (condition : Bool) : Owner Bool :=
  if condition then exec (.work .processStatus) else pure true

/-- The part of the loop of `lely_rtt_owner_entry` behind the receive path; whether the loop goes on. -/
def ownerWork (cfg : CanConfig) (events : Events) : Owner Bool := do
  let _ ← processStatusIf events.canStatus
  let _ ← exec (.work .timerAdvance)
  let fine : Bool ← ownerCommands cfg
  if !fine then
    pure false
  else do
    let _ ← processStatusIf (!cfg.useStatusIndication && (events.rxReady || events.timerDue))
    let _ ← exec (.work .drainLoop)
    let _ ← exec (.work .reap)
    pure true

/-- One turn of the loop of `lely_rtt_owner_entry`; whether the loop goes on. -/
def ownerTurn (cfg : CanConfig) : Owner Bool := do
  let received : Received ← exec .recv
  match received with
  | .error => pure false
  | .timeout => if cfg.commandIngress then ownerWork cfg {} else pure false
  | .events events =>
    if events.stop then
      pure false
    else if events.rxReady then do
      drainRx cfg
      ownerWork cfg events
    else
      ownerWork cfg events

/-- `lely_rtt_owner_cleanup` -/
def ownerCleanup : Owner Unit := do
  exec .quiesceBegin
  let _ ← exec (.work .commandFini)
  let _ ← exec (.setRxIndicate false)
  exec .registryRemove
  let _ ← exec (.work .callbacksWaitIdle)
  let _ ← exec (.work .release)

/-- The loop of `lely_rtt_owner_entry` -/
def ownerLoop (cfg : CanConfig) : Owner Unit := do
  let _ ← exec (.work .admissionOpen)
  Prog.loop () fun _ => do
    let go : Bool ← ownerTurn cfg
    if go then pure (.inl ()) else pure (.inr ())

/-- `lely_rtt_owner_entry` -/
def ownerEntry (cfg : CanConfig) : Owner Unit := do
  let ready : Bool ← ownerInit cfg
  if ready then do
    ownerLoop cfg
    ownerCleanup
  else
    ownerCleanup

/-- The owner beside the driver. -/
def machine : Machine Op.Res Own Shared where
  exec o own sh b own' sh' := ∃ input, o.run input own sh = some (b, own', sh')
  env _ sh sh' := EnvStep sh sh'

/-- The owner is about to run, and the driver may have received frames already. -/
inductive Starts (cfg : CanConfig) : Config Op.Res Own Shared → Prop
  | intro : Starts cfg ⟨ownerEntry cfg, {}, {}⟩

end LelyRtt.Can
