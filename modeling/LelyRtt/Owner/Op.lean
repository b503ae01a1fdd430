import LelyRtt.Conc.Prog
import LelyRtt.Sdo.Gate
import LelyRtt.Master.Threads

/-!
This module contains the state that only the owner thread touches and the atomic operations that the
owner's code is made of. Lely and the outside world answer through the operations `pick`, `work` and
`outcome`, whose results are arbitrary.
-/

namespace LelyRtt

open Conc

/-- A Client-SDO: the application's own one for a node, or an NMT-owned one by its number. -/
inductive Chan where
  | predefined (node : Nat)
  | custom (number : Nat)
  deriving DecidableEq, Repr

/-- The state of an existing Client-SDO. `foreign` is a transfer that is not an application request. -/
inductive Csdo (ι : Type) where
  | stopped
  | idle
  | busy (request : ι)
  | foreign
  deriving DecidableEq

/-- How a boot-slave request ends that `co_nmt_on_st` makes for a Boot-up. -/
inductive BootOutcome where
  | refused
  | started
  | finished (state : Nat)
  deriving DecidableEq, Repr

/-- How a Client-SDO request function returns. `confirmed` calls the confirmation before it returns. -/
inductive StartOutcome where
  | failed
  | started
  | confirmed (ac : BitVec 32) (data : List UInt8) (alloc : Bool) (failed : Bool)
  deriving DecidableEq

/-- How a configuration request function returns. -/
inductive CfgOutcome where
  | failed
  | started
  | confirmed (failed : Bool)
  deriving DecidableEq, Repr

/-- What Lely may run next from the owner's event loop. -/
inductive LelyWork where
  | none
  -- the transfer running on a Client-SDO ends with an abort code, 0 for success
  | confirm (chan : Chan) (ac : BitVec 32) (data : List UInt8) (alloc : Bool)
  -- a remote NMT state is indicated
  | remoteState (node : Nat) (st : Nat) (boot : BootOutcome)
  -- the boot-slave process of a node ends
  | bootDone (node : Nat) (st : Nat)
  -- the configuration of a node ends
  | cfgDone (node : Nat)
  -- the local node enters a state other than Pre-operational
  | localState (st : Nat)
  -- the local node enters Pre-operational and boots the given slaves
  | localPreop (boots : List Nat)
  -- NMT destroys or creates a custom Client-SDO, or something else uses it
  | customDestroy (number : Nat)
  | customCreate (number : Nat)
  | customBegin (number : Nat)
  | customEnd (number : Nat)
  deriving DecidableEq

/-- Who took a command out of the queue. -/
inductive TakenBy where
  | dispatch
  | drain
  deriving DecidableEq, Repr

/-- How far the owner has come in `lely_rtt_owner_entry`. -/
inductive Point where
  | init
  | running
  -- `lely_rtt_master_command_wait_idle` has returned in the cleanup
  | commandsIdle
  -- the queue is drained
  | drained
  -- `lely_rtt_master_sdo_cancel_wait_idle` has returned
  | cancelsIdle
  -- `lely_rtt_master_command_fini` has returned
  | finished
  | exited
  deriving DecidableEq, Repr

def Point.rank : Point → Nat
  | .init => 0
  | .running => 1
  | .commandsIdle => 2
  | .drained => 3
  | .cancelsIdle => 4
  | .finished => 5
  | .exited => 6

/-- Where the owner is with an increment of `sdo_cancel_refs` in `lely_rtt_master_sdo_complete`. -/
inductive PinStage where
  | none
  | beforeCas
  | afterFailedCas
  deriving DecidableEq, Repr

/--
The owner-only state around the requests: configuration, NMT bookkeeping and the SDO gate. `gateLog`
is history: the events that have written the gate.
-/
structure Misc (κ : Type) where
  sdoChannel : Nat → Nat
  sdoStopPending : Nat → Bool
  gate : Gate
  gateLog : List GateEvent
  canNet : Bool
  masterNmt : Bool
  localId : Nat
  booting : Nat → Bool
  cfgActive : Nat → Option κ
  bootResultValid : Nat → Bool

/--
The state that only the owner touches. `point`, `pinStage`, `taken`, `activated` and `started` are
history: the owner's progress, the commands it took out of the queue, the requests that became the
active transfer of their node, and those it called a Client-SDO request function for.
-/
structure Own (ι κ : Type) where
  sdoActive : Nat → Option ι
  sdoPending : Nat → Option ι
  csdo : Chan → Option (Csdo ι)
  misc : Misc κ
  point : Point
  pinStage : PinStage
  taken : List (TakenBy × Entry ι κ)
  activated : List ι
  started : List ι

inductive Op (ι κ : Type) where
  -- atomic accesses to a request and its event
  | loadState (r : ι)
  | casState (r : ι) (expected desired : ReqState)
  | storeCompletionRefs (r : ι) (refs : Nat)
  | sendCompletion (r : ι)
  -- plain accesses to a request
  | read (r : ι)
  | setResult (r : ι) (status : CompletionStatus) (err : RtErr) (ac : BitVec 32)
  | setCancelRequested (r : ι)
  | setNext (r : ι) (next : Option ι)
  | setBuffer (r : ι) (buffer : Option (List UInt8)) (size : Nat)
  -- owner-only state
  | own
  | setActive (node : Nat) (request : Option ι)
  | setPending (node : Nat) (request : Option ι)
  | setCsdo (chan : Chan) (csdo : Option (Csdo ι))
  | setMisc (f : Misc κ → Misc κ)
  | start (r : ι)
  | mark (point : Point)
  -- a program point between two owner operations
  | between
  -- lifetime counters and admission
  | addCancelRefs (diff : Int)
  | loadCancelRefs
  | loadCommandRefs
  | loadStopLatched
  | storeStopLatched
  | storeQuiescing (quiescing : Bool)
  | storeCallbackRefs
  | storeCallbackQuiescing (quiescing : Bool)
  | loadCallbackRefs
  -- the command queue and the runtime event
  | mqCreate
  | mqExists
  | mqReceive (by_ : TakenBy)
  | mqDelete
  | receive
  -- the outside world
  | storeLocalNodeId (id : Nat)
  | pick
  | work
  | outcome
  | cfgOutcome

/-- What an operation answers. A failed compare-exchange answers with the state it found. -/
def Op.Res {ι κ : Type} : Op ι κ → Type
  | .loadState _ => ReqState
  | .casState _ _ _ => Option ReqState
  | .storeCompletionRefs _ _ => Unit
  | .sendCompletion _ => Unit
  | .read _ => Request ι
  | .setResult _ _ _ _ => Unit
  | .setCancelRequested _ => Unit
  | .setNext _ _ => Unit
  | .setBuffer _ _ _ => Unit
  | .own => Own ι κ
  | .setActive _ _ => Unit
  | .setPending _ _ => Unit
  | .setCsdo _ _ => Unit
  | .setMisc _ => Unit
  | .start _ => Unit
  | .mark _ => Unit
  | .between => Unit
  | .addCancelRefs _ => Unit
  | .loadCancelRefs => Int
  | .loadCommandRefs => Int
  | .loadStopLatched => Bool
  | .storeStopLatched => Unit
  | .storeQuiescing _ => Unit
  | .storeCallbackRefs => Unit
  | .storeCallbackQuiescing _ => Unit
  | .loadCallbackRefs => Int
  | .mqCreate => Unit
  | .mqExists => Bool
  | .mqReceive _ => Option (Command ι κ)
  | .mqDelete => Unit
  | .receive => Bool
  | .storeLocalNodeId _ => Unit
  | .pick => Bool
  | .work => LelyWork
  | .outcome => StartOutcome
  | .cfgOutcome => CfgOutcome

/-- The answers of the outside world. -/
structure Input where
  pick : Bool := false
  work : LelyWork := .none
  outcome : StartOutcome := .failed
  cfgOutcome : CfgOutcome := .failed

variable {ι κ : Type} [DecidableEq ι] [DecidableEq κ]

/-- What an operation does. -/
def Op.run (o : Op ι κ) (input : Input) (own : Own ι κ) (sh : Shared ι κ)
    : o.Res × Own ι κ × Shared ι κ :=
  match o with
  | .loadState r => ((sh.heap r).state, own, sh)
  | .casState r expected desired =>
    -- a compare-exchange to a staged state ends or fails an attempt to hand over a runtime pin
    let stage (failed : PinStage) : Own ι κ :=
      if desired.staged then { own with pinStage := failed } else own
    if (sh.heap r).state = expected then
      let sh := sh.setState r desired
      (none, stage .none, if desired = .done then sh.note r (.setDone .owner) else sh)
    else
      (some (sh.heap r).state, stage .afterFailedCas, sh)
  | .storeCompletionRefs r refs =>
    let sh := sh.setCompletionRefs r refs
    ((), own, if refs = 0 then sh.note r (.clearRefs .owner) else sh)
  | .sendCompletion r => ((), own, (sh.sendCompletion r).note r (.sendDone .owner))
  | .read r => (sh.heap r, own, sh)
  | .setResult r status err ac =>
    ((), own, (sh.modify r fun request =>
      { request with completionStatus := status, localError := err, abortCode := ac }).note r
        (.result .owner))
  | .setCancelRequested r =>
    ((), own, sh.modify r fun request => { request with cancelRequested := true })
  | .setNext r next => ((), own, sh.modify r fun request => { request with next := next })
  | .setBuffer r buffer size =>
    ((), own, sh.modify r fun request => { request with buffer := buffer, size := size })
  | .own => (own, own, sh)
  | .setActive node request =>
    ((),
      {
        own with
          sdoActive := Function.update own.sdoActive node request
          activated := own.activated ++ request.toList
      },
      sh)
  | .setPending node request =>
    ((), { own with sdoPending := Function.update own.sdoPending node request }, sh)
  | .setCsdo chan csdo => ((), { own with csdo := Function.update own.csdo chan csdo }, sh)
  | .setMisc f => ((), { own with misc := f own.misc }, sh)
  | .start r => ((), { own with started := own.started ++ [r] }, sh)
  | .mark point => ((), { own with point := point }, sh)
  | .between => ((), own, sh)
  | .addCancelRefs diff =>
    ((), { own with pinStage := if diff = 1 then .beforeCas else .none },
      { sh with sdoCancelRefs := sh.sdoCancelRefs + diff })
  | .loadCancelRefs => (sh.sdoCancelRefs, own, sh)
  | .loadCommandRefs => (sh.commandRefs, own, sh)
  | .loadStopLatched => (sh.commandStopLatched, own, sh)
  | .storeStopLatched => ((), own, { sh with commandStopLatched := true })
  | .storeQuiescing quiescing => ((), own, { sh with commandQuiescing := quiescing })
  | .storeCallbackRefs => ((), own, { sh with callbackRefs := 0 })
  | .storeCallbackQuiescing quiescing => ((), own, { sh with callbackQuiescing := quiescing })
  | .loadCallbackRefs => (sh.callbackRefs, own, sh)
  | .mqCreate => ((), own, { sh with commandMq := some [] })
  | .mqExists => (sh.commandMq.isSome, own, sh)
  | .mqReceive by_ =>
    match sh.queue with
    | [] => (none, own, sh)
    | entry :: rest =>
      (some entry.command, { own with taken := own.taken ++ [(by_, entry)] },
        { sh with commandMq := some rest })
  | .mqDelete => ((), own, { sh with commandMq := none })
  | .receive =>
    (sh.eventStop, own, { sh with eventCommand := false, eventStop := false })
  | .storeLocalNodeId id => ((), own, { sh with localNodeId := id })
  | .pick => (input.pick, own, sh)
  | .work => (input.work, own, sh)
  | .outcome => (input.outcome, own, sh)
  | .cfgOutcome => (input.cfgOutcome, own, sh)

/-- The owner beside the application threads. -/
def machine (ι κ : Type) [DecidableEq ι] [DecidableEq κ] (cfg : BuildConfig)
    : Machine (@Op.Res ι κ) (Own ι κ) (Shared ι κ) where
  exec o own sh b own' sh' := ∃ input, o.run input own sh = (b, own', sh')
  env _ sh sh' := EnvStep cfg sh sh'

end LelyRtt
