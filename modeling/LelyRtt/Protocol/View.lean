import LelyRtt.Protocol.Place
import LelyRtt.Owner.Sdo

/-!
This module contains the view that accompanies the owner: what it knows about all requests and about
the phase of the run, and the moves by which the operations of the owner may change it. The code of
the owner is shown to make only these moves.
-/

namespace LelyRtt

open Conc

variable {ι κ : Type} [DecidableEq ι] [DecidableEq κ]

/-- Why nothing of a node needs the owner before its next event. -/
inductive Settled where
  | no
  -- the head of the FIFO was held by a canceling thread
  | head
  -- a cancel command of the node is in the queue
  | command
  deriving DecidableEq, Repr

/-- How far the owner has come in the run. -/
structure Phase where
  -- `callback_refs` was stored to zero
  reset : Bool
  -- the callback counters are initialized
  opened : Bool
  -- the command queue was created
  created : Bool
  -- the owner has latched the stop
  closing : Bool
  -- after that it saw no poster
  idle : Bool
  -- after that it saw an empty queue
  drained : Bool
  -- after that it saw no pin on the runtime
  pinsIdle : Bool
  -- how many commands in the queue are older than the last event that was received
  old : Nat
  -- the cancel command that is being dispatched
  target : Option (Nat × BitVec 32)

structure View (ι : Type) where
  place : ι → Place
  -- the request that the owner works on
  hand : Option ι
  fifo : Nat → List ι
  -- the rest of a FIFO that was detached from its node
  detached : List ι
  ident : ι → BitVec 32
  settled : Nat → Settled
  phase : Phase

namespace View

/-- The request goes to the place, and into the hand of the owner or out of it. -/
def put (v : View ι) (r : ι) (place : Place) : View ι :=
  {
    v with
      place := Function.update v.place r place
      hand := if place.inHand then some r else none
  }

@[simp]
theorem put_place_self (v : View ι) (r : ι) (place : Place) : (v.put r place).place r = place := by
  simp [put]

@[simp]
theorem put_put (v : View ι) (r : ι) (place place' : Place)
    : (v.put r place).put r place' = v.put r place' := by
  simp [put]

theorem put_self {v : View ι} {r : ι} {place : Place} (hplace : v.place r = place)
    (hhand : v.hand = if place.inHand then some r else none) : v.put r place = v := by
  subst hplace
  simp [put, ← hhand]

/-- The FIFO of the node changes, and so may its head. -/
def setFifo (v : View ι) (node : Nat) (fifo : List ι) : View ι :=
  {
    v with
      fifo := Function.update v.fifo node fifo
      settled := Function.update v.settled node
        (if v.settled node = .head then .no else v.settled node)
  }

theorem setFifo_put (v : View ι) (r : ι) (place : Place) (node : Nat) (fifo : List ι)
    : (v.setFifo node fifo).put r place = (v.put r place).setFifo node fifo := rfl

def setSettled (v : View ι) (node : Nat) (settled : Settled) : View ι :=
  { v with settled := Function.update v.settled node settled }

/-- The FIFO of the node is detached as a whole. -/
def detach (v : View ι) (node : Nat) : View ι :=
  {
    v.setFifo node [] with
      place := fun r => if r ∈ v.fifo node then .detached else v.place r
      detached := v.fifo node
  }

/-- A command was taken out of the queue. -/
def taken (v : View ι) : View ι :=
  { v with settled := fun _ => .no, phase := { v.phase with old := v.phase.old - 1 } }

/-- Nothing is in the hand of the owner. -/
def Rest (v : View ι) : Prop :=
  v.hand = none ∧ v.detached = []

/-- The dispatched cancel command has no request left to cancel in the FIFO of its node. -/
def TargetClear (v : View ι) : Prop :=
  ∀ node id, v.phase.target = some (node, id) → ∀ r ∈ v.fifo node, v.ident r ≠ id

/-- The owner may block: nothing of the node can be started, or another thread will wake it. -/
def Quiet (own : Own ι κ) (v : View ι) (node : Nat) : Prop :=
  sdoNodeAvailable own.misc node = false ∨ (own.sdoActive node).isSome
    ∨ own.misc.sdoStopPending node = true ∨ v.fifo node = [] ∨ v.settled node ≠ .no

end View

/-- How the owner is about to complete a request, as far as its place says. -/
def Place.ending? : Place → Option Ending
  | .claimed _ => some .act
  | .ending kind false false => some kind
  | _ => none

/-- Assumptions on a run that some results need. -/
structure Limits where
  -- no two unfinished requests of one node carry the same request id
  uniqueIds : Prop
  -- the local node boots only slaves without an active transfer
  idleBoots : Prop
  -- no node is booted for its Boot-up while it is configured
  idleCfgs : Prop

/-- The node must not have an active transfer. -/
def Misc.excludes (misc : Misc κ) (node : Nat) : Prop :=
  misc.booting node = true ∨ misc.cfgActive node ≠ none

/-- No node is booted and configured at once. -/
def Misc.Single (misc : Misc κ) : Prop :=
  ∀ node, misc.booting node = true → misc.cfgActive node = none

/-- What a change of the owner's bookkeeping respects. -/
structure MiscStep (lim : Limits) (own : Own ι κ) (misc : Misc κ) : Prop where
  channel : misc.sdoChannel = own.misc.sdoChannel
  master : misc.masterNmt = own.misc.masterNmt ∧ misc.canNet = own.misc.canNet
    ∨ ∀ node, own.sdoActive node = none
  exclusive : lim.idleBoots → ∀ node, misc.excludes node →
    own.misc.excludes node ∨ own.sdoActive node = none
  single : lim.idleCfgs → own.misc.Single → misc.Single
  gate : ∃ later, misc.gateLog = own.misc.gateLog ++ later ∧ misc.gate = own.misc.gate.run later

omit [DecidableEq ι] [DecidableEq κ] in
/-- Boots, configurations and the gate stay as they are. -/
theorem MiscStep.of_same {lim : Limits} {own : Own ι κ} {misc : Misc κ}
    (hchannel : misc.sdoChannel = own.misc.sdoChannel)
    (hmaster : misc.masterNmt = own.misc.masterNmt ∧ misc.canNet = own.misc.canNet
      ∨ ∀ node, own.sdoActive node = none)
    (hbooting : misc.booting = own.misc.booting) (hcfg : misc.cfgActive = own.misc.cfgActive)
    (hgate : misc.gateLog = own.misc.gateLog ∧ misc.gate = own.misc.gate)
    : MiscStep lim own misc where
  channel := hchannel
  master := hmaster
  exclusive _ node := by
    simp only [Misc.excludes, hbooting, hcfg]
    exact .inl
  single _ hsingle := by
    simp only [Misc.Single, hbooting, hcfg]
    exact hsingle
  gate := ⟨[], by simp [hgate.1], hgate.2⟩

/-- The operation changes nothing, and a request that it looks at is held. -/
def Op.looks (v : View ι) : Op ι κ → Prop
  | .loadState r | .read r => v.place r ≠ .away
  | .own | .loadStopLatched | .loadCallbackRefs | .loadCommandRefs | .loadCancelRefs | .mqExists
  | .pick | .work | .outcome | .cfgOutcome => True
  | _ => False

/-- The moves of the owner. The answer of the operation follows the state before it. -/
inductive Ghost (cfg : BuildConfig) (lim : Limits)
    : (o : Op ι κ) → Own ι κ → Shared ι κ → o.Res → View ι → View ι → Prop
  | look {o own sh b v} : o.looks v → Ghost cfg lim o own sh b v v
  | touchCancel {r own sh b v} : v.place r ≠ .away →
      Ghost cfg lim (.setCancelRequested r) own sh b v v
  | touchBuffer {r buffer size own sh b v} : v.place r ≠ .away →
      Ghost cfg lim (.setBuffer r buffer size) own sh b v v
  -- a request that was taken out of the queue
  | loadDropped {r own sh v node} : v.place r = .fresh node →
      Ghost cfg lim (.loadState r) own sh ReqState.cancelPending v
        (v.put r (.ending .pend false false))
  | claimPending {r own sh v node} : v.place r = .fresh node →
      Ghost cfg lim (.casState r .queued .pending) own sh (none : Option ReqState) v
        (v.put r (.joining node false))
  | claimActive {r own sh v node} : v.place r = .fresh node → v.fifo node = [] →
      own.sdoActive node = none →
      Ghost cfg lim (.casState r .queued .active) own sh (none : Option ReqState) v
        (v.put r (.claimed node))
  | claimDoomed {r own sh v node} : v.place r = .fresh node →
      Ghost cfg lim (.casState r .queued .active) own sh (none : Option ReqState) v
        (v.put r (.ending .act false false))
  | claimTeardown {r own sh v node} : v.place r = .fresh node →
      Ghost cfg lim (.casState r .queued .teardownPending) own sh (none : Option ReqState) v
        (v.put r (.ending .teardown false false))
  | claimFailed {r desired st own sh v node} : v.place r = .fresh node → desired.staged = false →
      Ghost cfg lim (.casState r .queued desired) own sh (some st : Option ReqState) v
        (v.put r (.ending .pend false false))
  -- the FIFO of a node
  | clearNext {r own sh b v} : v.hand = some r → (v.place r).loose →
      (∀ node cleared, v.place r ≠ .joining node cleared) →
      Ghost cfg lim (.setNext r none) own sh b v v
  | clearJoining {r own sh b v node cleared} : v.place r = .joining node cleared →
      Ghost cfg lim (.setNext r none) own sh b v (v.put r (.joining node true))
  | linkFirst {r own sh b v node} : v.place r = .joining node true → v.fifo node = [] →
      own.misc.gate.suspended node = false →
      Ghost cfg lim (.setPending node (some r)) own sh b v
        ((v.put r (.fifo node)).setFifo node [r])
  | link {r own sh b v node front tail} : v.place r = .joining node true →
      v.fifo node = front ++ [tail] → (v.fifo node).length < cfg.sdoQueueDepth →
      own.misc.gate.suspended node = false →
      Ghost cfg lim (.setNext tail (some r)) own sh b v
        ((v.put r (.fifo node)).setFifo node (front ++ [tail, r]))
  | promote {r own sh v node rest} : v.Rest → v.place r = .fifo node →
      v.fifo node = r :: rest → own.sdoActive node = none →
      Ghost cfg lim (.casState r .pending .active) own sh (none : Option ReqState) v
        ((v.put r (.promoted node)).setFifo node (r :: rest))
  | promoteFailed {r st own sh v node rest} : v.place r = .fifo node → v.fifo node = r :: rest →
      v.phase.old = 0 →
      Ghost cfg lim (.casState r .pending .active) own sh (some st : Option ReqState) v
        (v.setSettled node .head)
  | loadSettled {r own sh v node} : v.place r = .fifo node → v.phase.old = 0 →
      v.phase.target = none →
      Ghost cfg lim (.loadState r) own sh ReqState.cancelPending v (v.setSettled node .command)
  | popPromoted {r own sh b v node rest} : v.place r = .promoted node → v.fifo node = r :: rest →
      Ghost cfg lim (.setPending node rest.head?) own sh b v
        ((v.put r (.claimed node)).setFifo node rest)
  | popCanceled {r own sh b v node rest} : v.Rest → v.place r = .fifo node →
      v.fifo node = r :: rest →
      Ghost cfg lim (.setPending node rest.head?) own sh b v
        ((v.put r (.ending .pend false false)).setFifo node rest)
  | unlink {r prev own sh b v node front rest} : v.Rest → v.place r = .fifo node →
      v.fifo node = front ++ prev :: r :: rest →
      Ghost cfg lim (.setNext prev rest.head?) own sh b v
        ((v.put r (.ending .pend false false)).setFifo node (front ++ prev :: rest))
  | detach {own sh b v node} : v.Rest →
      Ghost cfg lim (.setPending node none) own sh b v (v.detach node)
  | takeDetached {r own sh b v rest} : v.hand = none → v.detached = r :: rest →
      Ghost cfg lim (.setNext r none) own sh b v
        { v.put r (.ending .pend false false) with detached := rest }
  -- the active transfer of a node
  | activate {r own sh b v node} : v.place r = .claimed node → own.sdoActive node = none →
      ¬own.misc.excludes node → own.misc.gate.suspended node = false →
      Ghost cfg lim (.setActive node (some r)) own sh b v (v.put r (.active node))
  | release {r own sh b v node} : v.hand = none → v.place r = .active node →
      (∀ chan, own.csdo chan ≠ some (.busy r)) →
      Ghost cfg lim (.setActive node none) own sh b v (v.put r (.ending .act false false))
  | clearActive {own sh b v node} : own.sdoActive node = none →
      Ghost cfg lim (.setActive node none) own sh b v v
  | setBusy {r own sh b v node} : v.place r = .active node → own.misc.masterNmt = true →
      own.misc.canNet = true →
      Ghost cfg lim (.setCsdo (own.misc.chan node) (some (.busy r))) own sh b v v
  | setCsdo {chan csdo own sh b v} : (∀ r, csdo ≠ some (.busy r)) →
      Ghost cfg lim (.setCsdo chan csdo) own sh b v v
  | setMisc {f own sh b v} : MiscStep lim own (f own.misc) →
      Ghost cfg lim (.setMisc f) own sh b v v
  | start {r own sh b v node} : v.place r = .active node → own.misc.gate.suspended node = false →
      Ghost cfg lim (.start r) own sh b v v
  -- completion
  | setResult {r status err ac own sh b v kind} : (v.place r).ending? = some kind →
      (kind = .pend → status = .canceled ∧ err = .ok ∧ ac = acNoSdo) →
      Ghost cfg lim (.setResult r status err ac) own sh b v (v.put r (.ending kind true false))
  | hold {r own sh b v kind} : v.place r = .ending kind true false →
      Ghost cfg lim (.storeCompletionRefs r 1) own sh b v (v.put r (.ending kind true true))
  | unhold {r own sh b v kind} : v.place r = .ending kind true true →
      Ghost cfg lim (.storeCompletionRefs r 0) own sh b v (v.put r (.ending kind true false))
  | publish {r st own sh v kind} : v.place r = .ending kind true true → st.pinned = false →
      Ghost cfg lim (.casState r st .done) own sh (none : Option ReqState) v
        (v.put r (.published false))
  | publishFailed {r st st' own sh v kind} : v.place r = .ending kind true true →
      Ghost cfg lim (.casState r st .done) own sh (some st' : Option ReqState) v v
  | send {r own sh b v} : v.place r = .published false →
      Ghost cfg lim (.sendCompletion r) own sh b v (v.put r (.published true))
  | finish {r own sh b v} : v.place r = .published true →
      Ghost cfg lim (.storeCompletionRefs r 0) own sh b v (v.put r .away)
  | pin {r own sh b v kind} : v.place r = .ending kind true false → own.pinStage = .none →
      Ghost cfg lim (.addCancelRefs 1) own sh b v v
  | stage {r own sh v kind} (pin : PinKind) : v.place r = .ending kind true false →
      own.pinStage = .beforeCas →
      Ghost cfg lim (.casState r pin.pinned pin.staged) own sh (none : Option ReqState) v
        (v.put r .away)
  | stageFailed {r st own sh v kind} (pin : PinKind) : v.place r = .ending kind true false →
      own.pinStage = .beforeCas →
      Ghost cfg lim (.casState r pin.pinned pin.staged) own sh (some st : Option ReqState) v v
  | unpin {own sh b v} : own.pinStage = .afterFailedCas →
      Ghost cfg lim (.addCancelRefs (-1)) own sh b v v
  -- the phase of the run
  | between {own sh b v} : v.Rest →
      (lim.uniqueIds → v.phase.closing = false → v.TargetClear) →
      Ghost cfg lim .between own sh b v { v with phase := { v.phase with target := none } }
  | latch {own sh b v} : Ghost cfg lim .storeStopLatched own sh b v
      { v with phase := { v.phase with closing := true } }
  | quiesce {quiescing own sh b v} : Ghost cfg lim (.storeQuiescing quiescing) own sh b v v
  | commandsIdle {own sh v} : v.phase.closing = true →
      Ghost cfg lim .loadCommandRefs own sh (0 : Int) v
        { v with phase := { v.phase with idle := true } }
  | resetCallbacks {own sh b v} : v.phase.opened = false →
      Ghost cfg lim .storeCallbackRefs own sh b v { v with phase := { v.phase with reset := true } }
  | openCallbacks {own sh b v} : v.phase.reset = true →
      Ghost cfg lim (.storeCallbackQuiescing false) own sh b v
        { v with phase := { v.phase with opened := true } }
  | closeCallbacks {own sh b v} : v.phase.closing = true →
      Ghost cfg lim (.storeCallbackQuiescing true) own sh b v v
  | create {own sh b v} : v.phase.created = false → Ghost cfg lim .mqCreate own sh b v
      { v with phase := { v.phase with created := true } }
  | noQueue {own sh v} : v.phase.idle = true → Ghost cfg lim .mqExists own sh false v
      { v with phase := { v.phase with drained := true } }
  | emptyQueue {by_ own sh v} : v.phase.idle = true →
      Ghost cfg lim (.mqReceive by_) own sh (none : Option (Command ι κ)) v
        { v with phase := { v.phase with drained := true } }
  | receiveNone {by_ own sh v} :
      Ghost cfg lim (.mqReceive by_) own sh (none : Option (Command ι κ)) v v
  | receiveSdo {by_ r own sh v} : v.Rest → v.phase.opened = true → v.phase.target = none →
      (by_ = .drain → v.phase.closing = true) →
      Ghost cfg lim (.mqReceive by_) own sh (some (.sdo r) : Option (Command ι κ)) v
        {
          v.taken.put r (.fresh (sh.heap r).nodeId) with
            ident := Function.update v.ident r (sh.heap r).requestId
        }
  | receiveCancel {by_ node id own sh v} : v.phase.target = none →
      (by_ = .drain → v.phase.closing = true) →
      Ghost cfg lim (.mqReceive by_) own sh (some (.sdoCancel node id) : Option (Command ι κ)) v
        { v.taken with phase := { v.taken.phase with target := some (node, id) } }
  | receiveOther {by_ command own sh v} : (∀ r, command ≠ .sdo r) →
      (∀ node id, command ≠ .sdoCancel node id) → (by_ = .drain → v.phase.closing = true) →
      Ghost cfg lim (.mqReceive by_) own sh (some command : Option (Command ι κ)) v v.taken
  | delete {own sh b v} : v.phase.drained = true → Ghost cfg lim .mqDelete own sh b v v
  | receive {own sh b v} : v.Rest → v.phase.closing = false → v.phase.target = none →
      v.phase.old = 0 →
      (∀ node, node ≠ 0 → node ≤ numNodes → v.Quiet own node) →
      Ghost cfg lim .receive own sh b v
        {
          v with
            settled := fun _ => .no
            phase := { v.phase with old := sh.queue.length }
        }
  | cancelsIdle {own sh v} : v.phase.drained = true → (∀ r, v.place r = .away) →
      Ghost cfg lim .loadCancelRefs own sh (0 : Int) v
        { v with phase := { v.phase with pinsIdle := true } }
  | storeLocalNodeId {id own sh b v} : Ghost cfg lim (.storeLocalNodeId id) own sh b v v
  | mark {point own sh b v} : (2 ≤ point.rank → v.phase.idle = true) →
      (3 ≤ point.rank → v.phase.drained = true) → (4 ≤ point.rank → v.phase.pinsIdle = true) →
      Ghost cfg lim (.mark point) own sh b v v

end LelyRtt
