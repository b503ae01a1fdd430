import LelyRtt.Basic
import LelyRtt.Conc.Ledger
import Mathlib.Data.List.FinRange
import Mathlib.Logic.Function.Basic

/-!
This module contains what the owner thread makes at the beginning of its run (`lely_rtt_owner_init`
and the functions that it calls) and undoes at the end (`lely_rtt_owner_cleanup`), with the proof that
it leaves nothing behind, whichever calls fail.
-/

namespace LelyRtt.Resources

open Conc

/--
What the runtime holds, each with the pointer or the flag that says so. The flags that no resource
belongs to are not among them: `event_initialized` stays set from creation to destruction, and
`command_stop_latched`, `command_quiescing` and `callback_quiescing` after a run until the next one.
-/
inductive Res where
  -- `ctx`
  | ctx
  -- `loop`
  | loop
  -- `deadline_timer_initialized`
  | deadlineTimer
  -- `timer`
  | timer
  -- `can_dev`
  | canDev
  -- `can_opened`
  | canOpened
  -- `registry_registered`
  | registry
  -- `status_registered`
  | status
  -- `controller_started`
  | controller
  -- `can_chan`
  | canChan
  -- `can_net`
  | canNet
  -- `master_dev`
  | masterDev
  -- `master_nmt`
  | masterNmt
  -- `local_od_hooks`
  | odHooks
  -- `command_mq`
  | commandMq
  -- `sdo_clients[id + 1]`
  | sdoClient (id : Fin numNodes)
  deriving DecidableEq, Repr

/--
What must be there as long as something else is. The objects of Lely refer to those that they were
created with; the hooks of the local object dictionary are taken out together with the NMT service;
the indications and the controller belong to the open device, and the registry finds a runtime by its
device.
-/
def Res.requires : Res → List Res
  | .timer => [.ctx, .loop]
  | .canOpened | .registry => [.canDev]
  | .status | .controller => [.canOpened]
  | .canChan => [.ctx, .loop, .canOpened]
  | .canNet => [.loop, .timer, .canChan]
  | .masterNmt => [.canNet, .masterDev]
  | .odHooks => [.masterDev, .masterNmt]
  | .sdoClient _ => [.canNet]
  | .ctx | .loop | .deadlineTimer | .canDev | .masterDev | .commandMq => []

def Res.Needs (a b : Res) : Prop := b ∈ a.requires

/-- The Client-SDOs of all nodes. -/
def sdoClients : List Res := (List.finRange numNodes).map .sdoClient

/-- What is freed before something else is. -/
def Res.dependents : Res → List Res
  | .ctx => [.timer, .canChan]
  | .loop => [.timer, .canChan, .canNet]
  | .timer | .canChan => [.canNet]
  | .canDev => [.canOpened, .registry]
  | .canOpened => [.status, .controller, .canChan]
  | .canNet => .masterNmt :: sdoClients
  | .masterDev => [.masterNmt, .odHooks]
  | .masterNmt => [.odHooks]
  | .deadlineTimer | .registry | .status | .controller | .odHooks | .commandMq | .sdoClient _ => []

theorem mem_sdoClients (id : Fin numNodes) : .sdoClient id ∈ sdoClients :=
  List.mem_map_of_mem (List.mem_finRange id)

theorem Res.Needs.dependents {a b : Res} (h : b.Needs a) : b ∈ a.dependents := by
  cases b <;> simp only [Needs, requires, List.mem_cons, List.not_mem_nil, or_false] at h <;>
    (try rcases h with rfl | rfl | rfl) <;> simp [Res.dependents, mem_sdoClients]

/-- The calls whose answers decide how the run of an owner begins and ends. -/
inductive Call where
  | ctxCreate | loopCreate | timerCreate | timeNow | setTime | deviceFind | nonblocking | deviceOpen
  | setBaud | setCanFd | setMode | filterSetup | setRxIndicate | setStatusInd | startController
  | chanCreate | netCreate | devCreate | nmtCreate | cfgBind | syncBind | resetNode | isMaster
  | validateChannels | syncValidate | odBind | emcyBind | timeBind | mqCreate
  -- arming the deadline timer in `lely_rtt_timer_advance`
  | arm
  -- `rt_device_set_rx_indicate` with `RT_NULL`, in `lely_rtt_can_quiesce` the first and the second time
  | detachRx (again : Bool)
  | detachStatus | stopController
  deriving DecidableEq, Repr

/-- The options of the build and of the runtime that decide what is made. -/
structure Options where
  /-- `RT_CAN_USING_CANFD` -/
  rtCanFd : Bool
  /-- `PKG_LELY_USING_CANFD` -/
  lelyCanFd : Bool
  canFd : Bool
  canBrs : Bool
  filterSetup : Bool
  useStatusIndication : Bool
  startController : Bool
  /-- `lely_rtt_runtime_configure_master` was called -/
  masterSdev : Bool
  /-- the local object dictionary has sub-objects to hook -/
  localOd : Bool
  commandIngress : Bool

/-- The runtime and the device, and the history of what was done to the resources. -/
structure World where
  held : Res → Bool
  statusValid : Bool
  runtimeError : RtErr
  /-- `lely_rtt_can_rx_indicate` is installed at the device. -/
  rxIndicate : Bool
  acts : List (Act Res)

def World.live (w : World) : Set Res := { a | w.held a = true }

/-- Code of the owner that may end with an error. -/
def Code (α : Type) : Type := World → Except RtErr α × World

namespace Code

def bind {α β : Type} (m : Code α) (f : α → Code β) : Code β := fun w =>
  match m w with
  | (.ok a, w) => f a w
  | (.error err, w) => (.error err, w)

instance : Monad Code where
  pure a w := (.ok a, w)
  bind := bind

end Code

def fail {α : Type} (err : RtErr) : Code α := fun w => (.error err, w)

def held (a : Res) : Code Bool := fun w => (.ok (w.held a), w)

def make (a : Res) : Code Unit := fun w =>
  (.ok (), { w with held := Function.update w.held a true, acts := w.acts ++ [.make a] })

def free (a : Res) : Code Unit := fun w =>
  (.ok (), { w with held := Function.update w.held a false, acts := w.acts ++ [.free a] })

def use (a : Res) : Code Unit := fun w => (.ok (), { w with acts := w.acts ++ [.use a] })

/-- What is only done if a pointer is not `RT_NULL` or a flag is set. -/
def ifHeld (a : Res) (m : Code Unit) : Code Unit := do
  if ← held a then m else pure ()

def uses (a : Res) : Code Unit := ifHeld a (use a)

def release (a : Res) : Code Unit := ifHeld a (free a)

/-- What is only done with an option. -/
def ifSet (c : Bool) (m : Code Unit) : Code Unit := if c then m else pure ()

def setRxIndicate (installed : Bool) : Code Unit := fun w =>
  (.ok (), { w with rxIndicate := installed })

def clearStatus : Code Unit := fun w => (.ok (), { w with statusValid := false })

/-- `lely_rtt_latch_error` -/
def latchError (err : RtErr) : Code Unit := fun w =>
  (.ok (), { w with runtimeError := if err ≠ .ok ∧ w.runtimeError = .ok then err else w.runtimeError })

/-! ### The beginning of a run -/

section

variable (opts : Options) (ans : Call → RtErr)

def check (call : Call) (err : RtErr) : Code Unit :=
  if ans call = .ok then pure () else fail err

def create (call : Call) (err : RtErr) (a : Res) : Code Unit :=
  if ans call = .ok then make a else fail err

/-- `lely_rtt_timer_init` -/
def timerInit : Code Unit := do
  if !(← held .ctx) || !(← held .loop) then
    fail .inval
  else
    make .deadlineTimer
    create ans .timerCreate .error .timer
    check ans .timeNow .error
    use .timer
    check ans .setTime .error

/-- The CAN FD part of `lely_rtt_can_init`. -/
def canFdInit : Code Unit :=
  if opts.lelyCanFd then
    if opts.canFd then
      if opts.rtCanFd then check ans .setCanFd (ans .setCanFd) else fail .nosys
    else
      pure ()
  else if opts.canFd || opts.canBrs then
    fail .inval
  else
    pure ()

/-- `lely_rtt_can_init` -/
def canInit : Code Unit := do
  create ans .deviceFind .nosys .canDev
  check ans .nonblocking .nosys
  create ans .deviceOpen (ans .deviceOpen) .canOpened
  check ans .setBaud (ans .setBaud)
  canFdInit opts ans
  check ans .setMode (ans .setMode)
  ifSet opts.filterSetup (check ans .filterSetup (ans .filterSetup))
  make .registry
  check ans .setRxIndicate (ans .setRxIndicate)
  setRxIndicate true
  ifSet opts.useStatusIndication (create ans .setStatusInd (ans .setStatusInd) .status)
  ifSet opts.startController (create ans .startController (ans .startController) .controller)
  create ans .chanCreate .error .canChan

/-- `lely_rtt_master_init` -/
def masterInit : Code Unit :=
  ifSet opts.masterSdev do
    create ans .devCreate .error .masterDev
    use .canNet
    create ans .nmtCreate .error .masterNmt
    use .masterNmt
    check ans .cfgBind (ans .cfgBind)
    check ans .syncBind (ans .syncBind)
    check ans .resetNode .error
    check ans .isMaster .error
    check ans .validateChannels (ans .validateChannels)
    check ans .syncValidate (ans .syncValidate)
    ifSet opts.localOd (create ans .odBind (ans .odBind) .odHooks)
    check ans .emcyBind (ans .emcyBind)
    check ans .timeBind (ans .timeBind)
    use .masterNmt

/-- `lely_rtt_master_command_init` -/
def commandInit : Code Unit := do
  if ← held .commandMq then
    fail .inval
  else
    create ans .mqCreate .nomem .commandMq

/-- `lely_rtt_owner_init` -/
def ownerInit : Code Unit := do
  create ans .ctxCreate .error .ctx
  create ans .loopCreate .error .loop
  timerInit ans
  canInit opts ans
  use .loop
  create ans .netCreate .error .canNet
  use .canNet
  masterInit opts ans
  commandInit ans
  -- `lely_rtt_can_drain_rx`
  use .canChan
  -- `lely_rtt_timer_advance` may latch an error through `lely_rtt_timer_setnext`
  use .timer
  latchError (ans .arm)
  check ans .arm (ans .arm)
  -- `lely_rtt_can_process_status`
  use .canChan
  use .loop

/-! ### The loop -/

/-- What the owner does to the Client-SDO of a node that uses the predefined channel. -/
inductive ClientStep where
  -- `lely_rtt_master_sdo_start_active`, where `co_csdo_create` and `co_csdo_start` may fail
  | start (id : Fin numNodes) (created started : Bool)
  -- `co_csdo_abort_req` and `co_csdo_stop`, in `lely_rtt_master_sdo_cancel_node` and elsewhere
  | stop (id : Fin numNodes)
  -- `lely_rtt_master_sdo_before_boot`
  | boot (id : Fin numNodes)
  deriving DecidableEq, Repr

/-- `lely_rtt_master_sdo_get_predefined_client`, which creates the client if there is none. -/
def getPredefinedClient (id : Fin numNodes) (created : Bool) : Code Unit := do
  if ← held (.sdoClient id) then
    pure ()
  else
    ifSet created do
      use .canNet
      make (.sdoClient id)

def clientStep : ClientStep → Code Unit
  | .start id created started => ifHeld .masterNmt do
    getPredefinedClient id created
    ifHeld (.sdoClient id) do
      use (.sdoClient id)
      -- `co_csdo_dn_req` or `co_csdo_up_req`
      ifSet started (use (.sdoClient id))
  | .stop id => uses (.sdoClient id)
  | .boot id => do
    uses (.sdoClient id)
    release (.sdoClient id)

def clientSteps : List ClientStep → Code Unit
  | [] => pure ()
  | step :: rest => do
    clientStep step
    clientSteps rest

/--
The event bits that an iteration of the loop has received, and what becomes of the Client-SDOs in it,
by the commands that are dispatched and by the frames that the loop of Lely works off.
-/
structure Events where
  rxReady : Bool
  canStatus : Bool
  timerDue : Bool
  clients : List ClientStep

/-- One iteration of the loop of `lely_rtt_owner_entry`. -/
def iterate (events : Events) : Code Unit := do
  ifSet events.rxReady (use .canChan)
  ifSet events.canStatus (use .canChan)
  use .timer
  ifSet opts.commandIngress do
    use .loop
    use .canNet
    use .commandMq
    uses .masterNmt
    clientSteps events.clients
  ifSet (!opts.useStatusIndication && (events.rxReady || events.timerDue)) (use .canChan)
  use .loop

def iterates : List Events → Code Unit
  | [] => pure ()
  | events :: rest => do
    iterate opts events
    iterates rest

/-! ### The end of a run -/

/-- `lely_rtt_can_quiesce` -/
def canQuiesce (again : Bool) : Code Unit :=
  ifHeld .canDev do
    ifSet (ans (.detachRx again) = .ok) (setRxIndicate false)
    latchError (ans (.detachRx again))
    ifHeld .status do
      latchError (ans .detachStatus)
      free .status
    ifHeld .controller do
      latchError (ans .stopController)
      free .controller
    release .registry

/-- `lely_rtt_master_fini` -/
def masterFini : Code Unit := do
  ifHeld .masterNmt do
    use .masterNmt
    release .odHooks
    use .masterNmt
    free .masterNmt
  release .masterDev

/-- `lely_rtt_can_fini` -/
def canFini : Code Unit := do
  canQuiesce ans true
  release .canChan
  ifHeld .canDev (release .canOpened)
  release .canDev
  clearStatus

/-- `lely_rtt_timer_fini` -/
def timerFini : Code Unit := do
  ifHeld .deadlineTimer do
    use .deadlineTimer
    free .deadlineTimer
  release .timer

/-- The loop over all nodes. -/
def each (f : Fin numNodes → Code Unit) : List (Fin numNodes) → Code Unit
  | [] => pure ()
  | id :: ids => do
    f id
    each f ids

/-- `lely_rtt_master_sdo_fini`, which first cancels the requests of all nodes. -/
def sdoFini : Code Unit := do
  each (fun id => uses (.sdoClient id)) (List.finRange numNodes)
  each (fun id => release (.sdoClient id)) (List.finRange numNodes)

/-- `lely_rtt_master_command_fini` -/
def commandFini : Code Unit := do
  uses .commandMq
  uses .masterNmt
  sdoFini
  release .commandMq

/-- `lely_rtt_owner_cleanup` -/
def ownerCleanup : Code Unit := do
  commandFini
  canQuiesce ans false
  uses .deadlineTimer
  masterFini
  uses .loop
  uses .ctx
  uses .loop
  release .canNet
  canFini ans
  timerFini
  uses .loop
  release .loop
  release .ctx

/-- `lely_rtt_owner_entry`, with the events of its loop. -/
def ownerEntry (events : List Events) (w : World) : World :=
  match ownerInit opts ans { w with runtimeError := .ok } with
  | (.error _, w) => (ownerCleanup ans w).2
  | (.ok _, w) => (ownerCleanup ans (iterates opts events w).2).2

end

/-! ### What the code does to the resources -/

variable {α β : Type} {P : Set Res → Prop} {a : Res} {opts : Options} {ans : Call → RtErr}

/--
From resources of which `P` holds the code does only what the ledger allows, also if it ends with an
error; without one `Q` holds of the resources afterwards.
-/
def Does (P : Set Res → Prop) (m : Code α) (Q : α → Set Res → Prop) : Prop :=
  ∀ w, P w.live → ∃ acts, (m w).2.acts = w.acts ++ acts
    ∧ Ledger Res.Needs w.live acts (m w).2.live ∧ ∀ a, (m w).1 = .ok a → Q a (m w).2.live

namespace Does

variable {Q : α → Set Res → Prop} {R : β → Set Res → Prop}

theorem pure {a : α} (h : ∀ live, P live → Q a live) : Does P (Pure.pure a : Code α) Q := by
  intro w hw
  refine ⟨[], by simp [Pure.pure], .nil _, ?_⟩
  rintro b ⟨⟩
  exact h _ hw

theorem fail (err : RtErr) : Does P (Resources.fail err : Code α) Q :=
  fun w _ => ⟨[], by simp [Resources.fail], .nil _, by simp [Resources.fail]⟩

theorem bind {m : Code α} {f : α → Code β} (hm : Does P m Q) (hf : ∀ a, Does (Q a) (f a) R)
    : Does P (m >>= f) R := by
  intro w hw
  obtain ⟨acts, hacts, hledger, hok⟩ := hm w hw
  change ∃ acts, (Code.bind m f w).2.acts = _ ∧ Ledger _ _ _ (Code.bind m f w).2.live
    ∧ ∀ a, (Code.bind m f w).1 = _ → R a (Code.bind m f w).2.live
  unfold Code.bind
  rcases hrun : m w with ⟨⟨err⟩ | ⟨b⟩, w'⟩
  . rw [hrun] at hacts hledger
    exact ⟨acts, hacts, hledger, by simp⟩
  . rw [hrun] at hacts hledger hok
    obtain ⟨acts', hacts', hledger', hok'⟩ := hf b w' (hok b rfl)
    exact ⟨acts ++ acts', by rw [hacts', hacts, List.append_assoc], hledger.append hledger', hok'⟩

theorem mono {m : Code α} {P' : Set Res → Prop} {Q' : α → Set Res → Prop} (h : Does P m Q)
    (hP : ∀ live, P' live → P live) (hQ : ∀ a live, Q a live → Q' a live) : Does P' m Q' := by
  intro w hw
  obtain ⟨acts, hacts, hledger, hok⟩ := h w (hP _ hw)
  exact ⟨acts, hacts, hledger, fun a ha => hQ a _ (hok a ha)⟩

theorem ite {c : Prop} [Decidable c] {m m' : Code α} (h : c → Does P m Q) (h' : ¬c → Does P m' Q)
    : Does P (if c then m else m') Q := by
  split
  next hc => exact h hc
  next hc => exact h' hc

/-- Code that asks whether something is held. -/
theorem asks {f : Bool → Code β} (h : Does (fun live => P live ∧ a ∈ live) (f true) R)
    (h' : Does (fun live => P live ∧ a ∉ live) (f false) R) : Does P (held a >>= f) R := by
  intro w hw
  change ∃ acts, (f (w.held a) w).2.acts = _ ∧ Ledger _ _ _ (f (w.held a) w).2.live
    ∧ ∀ b, (f (w.held a) w).1 = _ → R b (f (w.held a) w).2.live
  cases heq : w.held a
  . exact h' w ⟨hw, by simp [World.live, heq]⟩
  . exact h w ⟨hw, heq⟩

theorem make {Q : Unit → Set Res → Prop} (hdead : ∀ live, P live → a ∉ live)
    (hneeds : ∀ live, P live → ∀ b, a.Needs b → b ∈ live) (hQ : ∀ live, P live → Q () (insert a live))
    : Does P (Resources.make a) Q := by
  intro w hw
  have hlive : (Resources.make a w).2.live = insert a w.live := by
    ext b
    by_cases hb : b = a <;> simp [Resources.make, World.live, Function.update_apply, hb]
  refine ⟨[.make a], rfl, .make_one (hdead _ hw) (hneeds _ hw) hlive, ?_⟩
  rintro ⟨⟩ -
  rw [hlive]
  exact hQ _ hw

theorem free {Q : Unit → Set Res → Prop} (hlive : ∀ live, P live → a ∈ live)
    (hneeds : ∀ live, P live → ∀ b ∈ live, ¬b.Needs a) (hQ : ∀ live, P live → Q () (live \ {a}))
    : Does P (Resources.free a) Q := by
  intro w hw
  have heq : (Resources.free a w).2.live = w.live \ {a} := by
    ext b
    by_cases hb : b = a <;> simp [Resources.free, World.live, Function.update_apply, hb]
  refine ⟨[.free a], rfl, .free_one (hlive _ hw) (hneeds _ hw) heq, ?_⟩
  rintro ⟨⟩ -
  rw [heq]
  exact hQ _ hw

theorem use (hlive : ∀ live, P live → a ∈ live) : Does P (Resources.use a) fun _ => P :=
  fun _ hw => ⟨[.use a], rfl, .use_one (hlive _ hw), fun _ _ => hw⟩

theorem ifHeld {m : Code Unit} {Q : Unit → Set Res → Prop}
    (h : Does (fun live => P live ∧ a ∈ live) m Q) (h' : ∀ live, P live → a ∉ live → Q () live)
    : Does P (Resources.ifHeld a m) Q :=
  .asks h (.pure fun live hlive => h' live hlive.1 hlive.2)

theorem uses : Does P (Resources.uses a) fun _ => P := by
  refine .ifHeld ?_ fun _ h _ => h
  exact (Does.use fun _ h => h.2).mono (fun _ h => h) fun _ _ h => h.1

theorem setRxIndicate (installed : Bool) : Does P (Resources.setRxIndicate installed) fun _ => P :=
  fun _ hw => ⟨[], by simp [Resources.setRxIndicate], .nil _, fun _ _ => hw⟩

theorem clearStatus : Does P Resources.clearStatus fun _ => P :=
  fun _ hw => ⟨[], by simp [Resources.clearStatus], .nil _, fun _ _ => hw⟩

theorem latchError (err : RtErr) : Does P (Resources.latchError err) fun _ => P :=
  fun _ hw => ⟨[], by simp [Resources.latchError], .nil _, fun _ _ => hw⟩

theorem check (call : Call) (err : RtErr) : Does P (Resources.check ans call err) fun _ => P :=
  .ite (fun _ => .pure fun _ h => h) fun _ => .fail err

/-- Code that is only run with some options. -/
theorem ifSet {c : Bool} {m : Code Unit} (h : Does P m fun _ => P)
    : Does P (Resources.ifSet c m) fun _ => P :=
  .ite (fun _ => h) fun _ => .pure fun _ h => h

end Does

/-! ### The beginning of a run makes things in order -/

/-- All of `yes` is alive, and nothing of `no`. -/
def Has (yes no : List Res) (live : Set Res) : Prop := (∀ a ∈ yes, a ∈ live) ∧ ∀ a ∈ no, a ∉ live

theorem Has.weaken {yes yes' no no' : List Res} {live : Set Res} (h : Has yes no live)
    (hyes : ∀ a ∈ yes', a ∈ yes) (hno : ∀ a ∈ no', a ∈ no) : Has yes' no' live :=
  ⟨fun a ha => h.1 a (hyes a ha), fun a ha => h.2 a (hno a ha)⟩

namespace Does

variable {yes no : List Res}

theorem makes (hdead : a ∈ no) (hneeds : ∀ b ∈ a.requires, b ∈ yes)
    : Does (Has yes no) (Resources.make a) fun _ => Has (a :: yes) (no.filter (· ≠ a)) := by
  refine .make (fun _ h => h.2 a hdead) (fun _ h b hb => h.1 b (hneeds b hb)) fun live h => ?_
  constructor
  . intro b hb
    exact (List.mem_cons.1 hb).imp_right (h.1 b)
  . intro b hb
    rw [List.mem_filter] at hb
    rintro (rfl | hlive)
    . simp at hb
    . exact h.2 b hb.1 hlive

theorem creates (call : Call) (err : RtErr) (hdead : a ∈ no) (hneeds : ∀ b ∈ a.requires, b ∈ yes)
    : Does (Has yes no) (Resources.create ans call err a) fun _ =>
      Has (a :: yes) (no.filter (· ≠ a)) :=
  .ite (fun _ => .makes hdead hneeds) fun _ => .fail err

/-- What is only made with some options is not known to be there. -/
theorem option {c : Bool} (call : Call) (err : RtErr) (hdead : a ∈ no)
    (hneeds : ∀ b ∈ a.requires, b ∈ yes)
    : Does (Has yes no) (Resources.ifSet c (Resources.create ans call err a)) fun _ =>
      Has yes (no.filter (· ≠ a)) := by
  have hno : ∀ b ∈ no.filter (· ≠ a), b ∈ no := fun b hb => (List.mem_filter.1 hb).1
  refine .ite (fun _ => ?_) fun _ => .pure fun _ h => h.weaken (fun _ hb => hb) hno
  refine (creates call err hdead hneeds).mono (fun _ h => h) fun _ _ h => ?_
  exact h.weaken (fun _ hb => List.mem_cons_of_mem _ hb) fun _ hb => hb

theorem last {yes' no' : List Res} {m : Code Unit} (h : Does P m fun _ => Has yes no)
    (hyes : ∀ a ∈ yes', a ∈ yes) (hno : ∀ a ∈ no', a ∈ no) : Does P m fun _ => Has yes' no' :=
  h.mono (fun _ h => h) fun _ _ h => h.weaken hyes hno

theorem uses_of (ha : a ∈ yes) : Does (Has yes no) (Resources.use a) fun _ => Has yes no :=
  .use fun _ h => h.1 a ha

end Does

/-- What `lely_rtt_owner_init` makes after the CAN channel. -/
def afterCan : List Res := [.canNet, .masterDev, .masterNmt, .odHooks, .commandMq]

/-- What `lely_rtt_can_init` makes. -/
def ofCan : List Res := [.canDev, .canOpened, .registry, .status, .controller, .canChan]

theorem timerInit_does
    : Does (Has [.loop, .ctx] (.deadlineTimer :: .timer :: ofCan ++ afterCan)) (timerInit ans) fun _ =>
      Has [.timer, .loop, .ctx] (ofCan ++ afterCan) := by
  have hinit : Does (Has [.loop, .ctx] (.deadlineTimer :: .timer :: ofCan ++ afterCan))
      (do
        make .deadlineTimer
        create ans .timerCreate .error .timer
        check ans .timeNow .error
        use .timer
        check ans .setTime .error) fun _ => Has [.timer, .loop, .ctx] (ofCan ++ afterCan) := by
    refine .bind (.makes (by decide) (by decide)) fun _ => ?_
    refine .bind (.creates _ _ (by decide) (by decide)) fun _ => ?_
    refine .bind (.check _ _) fun _ => ?_
    refine .bind (.uses_of (by decide)) fun _ => ?_
    exact .last (.check _ _) (by decide) (by decide)
  unfold timerInit
  refine .asks ?_ ?_
  . refine .asks ?_ (.fail _)
    exact hinit.mono (fun _ h => h.1.1) fun _ _ h => h
  . refine .asks (.fail _) (.fail _)

theorem canFdInit_does : Does P (canFdInit opts ans) fun _ => P := by
  unfold canFdInit
  refine .ite (fun _ => ?_) fun _ => .ite (fun _ => .fail _) fun _ => .pure fun _ h => h
  refine .ite (fun _ => ?_) fun _ => .pure fun _ h => h
  exact .ite (fun _ => .check _ _) fun _ => .fail _

theorem canInit_does
    : Does (Has [.timer, .loop, .ctx] (ofCan ++ afterCan)) (canInit opts ans) fun _ =>
      Has [.canChan, .timer, .loop] afterCan := by
  unfold canInit
  refine .bind (.creates _ _ (by decide) (by decide)) fun _ => ?_
  refine .bind (.check _ _) fun _ => ?_
  refine .bind (.creates _ _ (by decide) (by decide)) fun _ => ?_
  refine .bind (.check _ _) fun _ => ?_
  refine .bind canFdInit_does fun _ => ?_
  refine .bind (.check _ _) fun _ => ?_
  refine .bind (.ifSet (.check _ _)) fun _ => ?_
  refine .bind (.makes (by decide) (by decide)) fun _ => ?_
  refine .bind (.check _ _) fun _ => ?_
  refine .bind (.setRxIndicate _) fun _ => ?_
  refine .bind (.option _ _ (by decide) (by decide)) fun _ => ?_
  refine .bind (.option _ _ (by decide) (by decide)) fun _ => ?_
  exact .last (.creates _ _ (by decide) (by decide)) (by decide) (by decide)

theorem masterInit_does
    : Does (Has [.canNet, .canChan, .timer, .loop] [.masterDev, .masterNmt, .odHooks, .commandMq])
      (masterInit opts ans) fun _ => Has [.canNet, .canChan, .timer, .loop] [.commandMq] := by
  unfold masterInit
  refine .ite (fun _ => ?_) fun _ => .pure fun _ h => h.weaken (by decide) (by decide)
  refine .bind (.creates _ _ (by decide) (by decide)) fun _ => ?_
  refine .bind (.uses_of (by decide)) fun _ => ?_
  refine .bind (.creates _ _ (by decide) (by decide)) fun _ => ?_
  refine .bind (.uses_of (by decide)) fun _ => ?_
  refine .bind (.check _ _) fun _ => ?_
  refine .bind (.check _ _) fun _ => ?_
  refine .bind (.check _ _) fun _ => ?_
  refine .bind (.check _ _) fun _ => ?_
  refine .bind (.check _ _) fun _ => ?_
  refine .bind (.check _ _) fun _ => ?_
  refine .bind (.option _ _ (by decide) (by decide)) fun _ => ?_
  refine .bind (.check _ _) fun _ => ?_
  refine .bind (.check _ _) fun _ => ?_
  exact .last (.uses_of (by decide)) (by decide) (by decide)

/-- What the loop of the owner works with. -/
def working : List Res := [.commandMq, .canNet, .canChan, .timer, .loop]

theorem commandInit_does
    : Does (Has [.canNet, .canChan, .timer, .loop] [.commandMq]) (commandInit ans) fun _ =>
      Has working [] := by
  have hcreate : Does (Has [.canNet, .canChan, .timer, .loop] [.commandMq])
      (create ans .mqCreate .nomem .commandMq) fun _ => Has working [] :=
    .last (.creates _ _ (by decide) (by decide)) (by decide) (by decide)
  exact .asks (.fail _) (hcreate.mono (fun _ h => h.1) fun _ _ h => h)

theorem ownerInit_does : Does (fun live => live = ∅) (ownerInit opts ans) fun _ => Has working [] := by
  have hstart : Does (Has [] (.ctx :: .loop :: .deadlineTimer :: .timer :: ofCan ++ afterCan))
      (ownerInit opts ans) fun _ => Has working [] := by
    unfold ownerInit
    refine .bind (.creates _ _ (by decide) (by decide)) fun _ => ?_
    refine .bind (.creates _ _ (by decide) (by decide)) fun _ => ?_
    refine .bind (timerInit_does.mono (fun _ h => h.weaken (by decide) (by decide)) fun _ _ h => h)
      fun _ => ?_
    refine .bind canInit_does fun _ => ?_
    refine .bind (.uses_of (by decide)) fun _ => ?_
    refine .bind (.creates _ _ (by decide) (by decide)) fun _ => ?_
    refine .bind (.uses_of (by decide)) fun _ => ?_
    refine .bind (masterInit_does.mono (fun _ h => h.weaken (by decide) (by decide)) fun _ _ h => h)
      fun _ => ?_
    refine .bind commandInit_does fun _ => ?_
    refine .bind (.uses_of (by decide)) fun _ => ?_
    refine .bind (.uses_of (by decide)) fun _ => ?_
    refine .bind (.latchError _) fun _ => ?_
    refine .bind (.check _ _) fun _ => ?_
    refine .bind (.uses_of (by decide)) fun _ => ?_
    exact .uses_of (by decide)
  refine hstart.mono ?_ fun _ _ h => h
  rintro live rfl
  exact ⟨by simp, by simp⟩

/-- What the owner does to a Client-SDO is all right once the network is there. -/
theorem clientStep_does (step : ClientStep)
    : Does (Has working []) (clientStep step) fun _ => Has working [] := by
  cases step with
  | start id created started =>
    have huse : Does (fun live => Has working [] live ∧ .sdoClient id ∈ live)
        (do
          use (.sdoClient id)
          ifSet started (use (.sdoClient id))) fun _ => Has working [] := by
      refine .bind (.use fun _ h => h.2) fun _ => ?_
      exact (Does.ifSet (.use fun _ h => h.2)).mono (fun _ h => h) fun _ _ h => h.1
    have hmake : Does (fun live => Has working [] live ∧ .sdoClient id ∉ live)
        (ifSet created do
          use .canNet
          make (.sdoClient id)) fun _ => Has working [] := by
      refine .ite (fun _ => ?_) fun _ => .pure fun _ h => h.1
      refine .bind (Q := fun _ live => Has working [] live ∧ .sdoClient id ∉ live)
        (.use fun live h => h.1.1 .canNet (by decide)) fun _ => ?_
      refine .make (fun live h => h.2) (fun live h b hb => ?_) fun live h => ?_
      . rw [List.mem_singleton.1 hb]
        exact h.1.1 .canNet (by decide)
      . exact ⟨fun b hb => .inr (h.1.1 b hb), nofun⟩
    have hget : Does (Has working []) (getPredefinedClient id created) fun _ => Has working [] :=
      .asks (.pure fun _ h => h.1) hmake
    have hstart := Does.bind hget fun _ => Does.ifHeld huse fun _ h _ => h
    exact .ifHeld (hstart.mono (fun _ h => h.1) fun _ _ h => h) fun _ h _ => h
  | stop id => exact .uses
  | boot id =>
    refine .bind .uses fun _ => .ifHeld ?_ fun _ h _ => h
    refine .free (fun _ h => h.2) (fun _ _ b _ hb => nomatch hb.dependents) fun live h => ?_
    refine ⟨fun b hb => ⟨h.1.1 b hb, ?_⟩, nofun⟩
    rintro rfl
    simp [working] at hb

theorem clientSteps_does (steps : List ClientStep)
    : Does (Has working []) (clientSteps steps) fun _ => Has working [] := by
  induction steps with
  | nil => exact .pure fun _ h => h
  | cons step rest ih => exact .bind (clientStep_does step) fun _ => ih

theorem iterate_does (events : Events)
    : Does (Has working []) (iterate opts events) fun _ => Has working [] := by
  unfold iterate
  refine .bind (.ifSet (.uses_of (by decide))) fun _ => ?_
  refine .bind (.ifSet (.uses_of (by decide))) fun _ => ?_
  refine .bind (.uses_of (by decide)) fun _ => ?_
  refine .bind (.ifSet ?_) fun _ => ?_
  . refine .bind (.uses_of (by decide)) fun _ => ?_
    refine .bind (.uses_of (by decide)) fun _ => ?_
    refine .bind (.uses_of (by decide)) fun _ => ?_
    exact .bind .uses fun _ => clientSteps_does _
  . refine .bind (.ifSet (.uses_of (by decide))) fun _ => ?_
    exact .uses_of (by decide)

theorem iterates_does (events : List Events)
    : Does (Has working []) (iterates opts events) fun _ => Has working [] := by
  induction events with
  | nil => exact .pure fun _ h => h
  | cons event rest ih => exact .bind (iterate_does event) fun _ => ih

/-! ### The end of a run undoes everything -/

/-- Everything that is alive has what it needs, and nothing of `gone` is alive. -/
def Left (gone : List Res) (live : Set Res) : Prop :=
  Ledger.Closed Res.Needs live ∧ ∀ a ∈ gone, a ∉ live

/-- What needs something that is gone is gone as well. -/
theorem Left.not_needing {gone : List Res} {live : Set Res} (h : Left gone live) {b : Res}
    (hneeds : a ∈ b.requires) (ha : a ∉ live) : b ∉ live :=
  fun hb => ha (h.1 b hb a hneeds)

theorem Left.also {gone : List Res} {live : Set Res} (h : Left gone live) (ha : a ∉ live)
    : Left (a :: gone) live := by
  refine ⟨h.1, fun b hb => ?_⟩
  rcases List.mem_cons.1 hb with rfl | hb
  . exact ha
  . exact h.2 b hb

variable {gone : List Res}

theorem Left.freed {live : Set Res} (h : Left gone live) (ha : a ∈ live)
    (hneeds : ∀ b ∈ a.dependents, b ∈ gone) : Left (a :: gone) (live \ {a}) := by
  have hnot (b : Res) (hb : b ∈ live) : ¬b.Needs a := fun hba => h.2 b (hneeds b hba.dependents) hb
  refine ⟨(Ledger.free_one ha hnot rfl).closed h.1, fun b hb hlive => ?_⟩
  rcases List.mem_cons.1 hb with rfl | hb
  . exact hlive.2 rfl
  . exact h.2 b hb hlive.1

namespace Does

theorem frees (hneeds : ∀ b ∈ a.dependents, b ∈ gone)
    : Does (fun live => Left gone live ∧ a ∈ live) (Resources.free a) fun _ => Left (a :: gone) :=
  .free (fun _ h => h.2) (fun _ h b hb hba => h.1.2 b (hneeds b hba.dependents) hb) fun _ h => h.1.freed h.2 hneeds

theorem releases (hneeds : ∀ b ∈ a.dependents, b ∈ gone)
    : Does (Left gone) (Resources.release a) fun _ => Left (a :: gone) :=
  .ifHeld (.frees hneeds) fun _ h ha => h.also ha

/-- Something else is still there. -/
theorem releases_but {c : Res} (hc : c ≠ a) (hneeds : ∀ b ∈ a.dependents, b ∈ gone)
    : Does (fun live => Left gone live ∧ c ∈ live) (Resources.release a) fun _ live =>
      Left (a :: gone) live ∧ c ∈ live := by
  refine .ifHeld ?_ fun _ h ha => ⟨h.1.also ha, h.2⟩
  exact .free (fun _ h => h.2) (fun _ h b hb hba => h.1.1.2 b (hneeds b hba.dependents) hb) fun _ h =>
    ⟨h.1.1.freed h.2 hneeds, h.1.2, hc⟩

/-- Something is freed after the device was told so. -/
theorem detaches (err : RtErr) (hneeds : ∀ b ∈ a.dependents, b ∈ gone)
    : Does (Left gone)
      (Resources.ifHeld a do
        Resources.latchError err
        Resources.free a) fun _ => Left (a :: gone) :=
  .ifHeld (.bind (.latchError _) fun _ => .frees hneeds) fun _ h ha => h.also ha

end Does

theorem canQuiesce_does (again : Bool)
    : Does (Left gone) (canQuiesce ans again) fun _ =>
      Left (.registry :: .controller :: .status :: gone) := by
  have hheld : Does (Left gone)
      (do
        ifSet (ans (.detachRx again) = .ok) (setRxIndicate false)
        latchError (ans (.detachRx again))
        ifHeld .status do
          latchError (ans .detachStatus)
          free .status
        ifHeld .controller do
          latchError (ans .stopController)
          free .controller
        release .registry) fun _ => Left (.registry :: .controller :: .status :: gone) := by
    refine .bind (.ifSet (.setRxIndicate _)) fun _ => ?_
    refine .bind (.latchError _) fun _ => ?_
    refine .bind (.detaches _ nofun) fun _ => ?_
    refine .bind (.detaches _ nofun) fun _ => ?_
    exact .releases nofun
  refine .ifHeld (hheld.mono (fun _ h => h.1) fun _ _ h => h) fun live h hdev => ?_
  have hopened := h.not_needing (b := .canOpened) (by decide) hdev
  have hstatus := h.not_needing (b := .status) (by decide) hopened
  have hcontroller := h.not_needing (b := .controller) (by decide) hopened
  have hregistry := h.not_needing (b := .registry) (by decide) hdev
  exact ((h.also hstatus).also hcontroller).also hregistry

theorem masterFini_does
    : Does (Left gone) masterFini fun _ => Left (.masterDev :: .masterNmt :: .odHooks :: gone) := by
  have hnmt : Does (fun live => Left gone live ∧ .masterNmt ∈ live)
      (do
        use .masterNmt
        release .odHooks
        use .masterNmt
        free .masterNmt) fun _ => Left (.masterNmt :: .odHooks :: gone) := by
    refine .bind (.use fun _ h => h.2) fun _ => ?_
    refine .bind (.releases_but (by decide) nofun) fun _ => ?_
    refine .bind (.use fun _ h => h.2) fun _ => ?_
    exact .frees (by simp [Res.dependents])
  unfold masterFini
  refine .bind (.ifHeld hnmt fun live h hnmt => ?_) fun _ => ?_
  . have hhooks := h.not_needing (b := .odHooks) (by decide) hnmt
    exact (h.also hhooks).also hnmt
  . exact .releases (by simp [Res.dependents])

theorem canFini_does (hnet : .canNet ∈ gone)
    : Does (Left gone) (canFini ans) fun _ =>
      Left (.canDev :: .canOpened :: .canChan :: .registry :: .controller :: .status :: gone) := by
  have hclose : Does (Left (.canChan :: .registry :: .controller :: .status :: gone))
      (ifHeld .canDev (release .canOpened)) fun _ =>
      Left (.canOpened :: .canChan :: .registry :: .controller :: .status :: gone) := by
    refine .ifHeld ?_ fun live h hdev => h.also (h.not_needing (b := .canOpened) (by decide) hdev)
    have hopened : ∀ b ∈ Res.dependents .canOpened,
        b ∈ .canChan :: .registry :: .controller :: .status :: gone := by simp [Res.dependents]
    exact (Does.releases hopened).mono (fun _ h => h.1) fun _ _ h => h
  unfold canFini
  refine .bind (canQuiesce_does true) fun _ => ?_
  refine .bind (.releases (by simp [Res.dependents, hnet])) fun _ => ?_
  refine .bind hclose fun _ => ?_
  exact .bind (.releases (by simp [Res.dependents])) fun _ => .clearStatus

theorem timerFini_does (hnet : .canNet ∈ gone)
    : Does (Left gone) timerFini fun _ => Left (.timer :: .deadlineTimer :: gone) := by
  have hdeadline : Does (Left gone)
      (ifHeld .deadlineTimer do
        use .deadlineTimer
        free .deadlineTimer) fun _ => Left (.deadlineTimer :: gone) := by
    refine .ifHeld ?_ fun _ h ha => h.also ha
    exact .bind (.use fun _ h => h.2) fun _ => .frees nofun
  unfold timerFini
  exact .bind hdeadline fun _ => .releases (by simp [Res.dependents, hnet])

theorem each_does {f : Fin numNodes → Code Unit} (h : ∀ id, Does P (f id) fun _ => P)
    (ids : List (Fin numNodes)) : Does P (each f ids) fun _ => P := by
  induction ids with
  | nil => exact .pure fun _ h => h
  | cons id ids ih => exact .bind (h id) fun _ => ih

theorem each_release_does (ids : List (Fin numNodes))
    : Does (Left gone) (each (fun id => release (.sdoClient id)) ids) fun _ =>
      Left (ids.map .sdoClient ++ gone) := by
  induction ids generalizing gone with
  | nil => exact .pure fun _ h => h
  | cons id ids ih =>
    refine .bind (.releases nofun) fun _ => ih.mono (fun _ h => h) fun _ live h => ?_
    refine ⟨h.1, fun b hb => h.2 b ?_⟩
    simpa [or_left_comm] using hb

/-- No Client-SDO is left, and the message queue is gone. -/
theorem commandFini_does
    : Does (Left gone) commandFini fun _ => Left (.commandMq :: (sdoClients ++ gone)) := by
  unfold commandFini sdoFini
  refine .bind .uses fun _ => .bind .uses fun _ => ?_
  refine .bind (.bind (each_does (fun id => .uses) _) fun _ => each_release_does _) fun _ => ?_
  exact .releases nofun

/-- The cleanup leaves nothing, whatever the owner had made when it began. -/
theorem ownerCleanup_does
    : Does (Ledger.Closed Res.Needs) (ownerCleanup ans) fun _ live => live = ∅ := by
  have hleft : Does (Left []) (ownerCleanup ans) fun _ live => live = ∅ := by
    unfold ownerCleanup
    refine .bind commandFini_does fun _ => ?_
    refine .bind (canQuiesce_does false) fun _ => ?_
    refine .bind .uses fun _ => ?_
    refine .bind masterFini_does fun _ => ?_
    refine .bind .uses fun _ => ?_
    refine .bind .uses fun _ => ?_
    refine .bind .uses fun _ => ?_
    refine .bind (.releases (by simp +contextual [Res.dependents])) fun _ => ?_
    refine .bind (canFini_does (by simp)) fun _ => ?_
    refine .bind (timerFini_does (by simp)) fun _ => ?_
    refine .bind .uses fun _ => ?_
    refine .bind (.releases (by simp [Res.dependents])) fun _ => ?_
    refine (Does.releases (by simp [Res.dependents])).mono (fun _ h => h) fun _ live h => ?_
    refine Set.eq_empty_iff_forall_notMem.2 fun a => h.2 a ?_
    cases a <;> simp [mem_sdoClients]
  exact hleft.mono (fun _ h => ⟨h, by simp⟩) fun _ _ h => h

/-! ### Whole runs -/

/-- The code does not end with an error. -/
def Total (m : Code α) : Prop := ∀ w, ∃ a, (m w).1 = .ok a

namespace Total

theorem bind {m : Code α} {f : α → Code β} (hm : Total m) (hf : ∀ a, Total (f a)) : Total (m >>= f) := by
  intro w
  obtain ⟨a, ha⟩ := hm w
  obtain ⟨b, hb⟩ := hf a (m w).2
  refine ⟨b, ?_⟩
  change (Code.bind m f w).1 = _
  unfold Code.bind
  rcases hrun : m w with ⟨⟨err⟩ | ⟨c⟩, w'⟩
  . simp [hrun] at ha
  . rw [hrun] at ha hb
    cases ha
    exact hb

theorem ifHeld {m : Code Unit} (hm : Total m) : Total (Resources.ifHeld a m) := by
  intro w
  change ∃ b, ((if w.held a then m else Pure.pure ()) w).1 = .ok b
  split
  . exact hm w
  . exact ⟨(), rfl⟩

theorem ifSet {c : Bool} {m : Code Unit} (hm : Total m) : Total (Resources.ifSet c m) := by
  cases c
  . exact fun _ => ⟨(), rfl⟩
  . exact hm

theorem use : Total (Resources.use a) := fun _ => ⟨(), rfl⟩

theorem free : Total (Resources.free a) := fun _ => ⟨(), rfl⟩

theorem latchError (err : RtErr) : Total (Resources.latchError err) := fun _ => ⟨(), rfl⟩

end Total

theorem canQuiesce_total (again : Bool) : Total (canQuiesce ans again) := by
  refine .ifHeld (.bind (.ifSet fun _ => ⟨(), rfl⟩) fun _ => .bind (.latchError _) fun _ => ?_)
  refine .bind (.ifHeld (.bind (.latchError _) fun _ => .free)) fun _ => ?_
  exact .bind (.ifHeld (.bind (.latchError _) fun _ => .free)) fun _ => .ifHeld .free

theorem each_total {f : Fin numNodes → Code Unit} (h : ∀ id, Total (f id)) (ids : List (Fin numNodes))
    : Total (each f ids) := by
  induction ids with
  | nil => exact fun _ => ⟨(), rfl⟩
  | cons id ids ih => exact .bind (h id) fun _ => ih

theorem ownerCleanup_total : Total (ownerCleanup ans) := by
  have hmaster : Total masterFini :=
    .bind (.ifHeld (.bind .use fun _ => .bind (.ifHeld .free) fun _ => .bind .use fun _ => .free))
      fun _ => .ifHeld .free
  have hcan : Total (canFini ans) :=
    .bind (canQuiesce_total true) fun _ => .bind (.ifHeld .free) fun _ =>
      .bind (.ifHeld (.ifHeld .free)) fun _ => .bind (.ifHeld .free) fun _ => fun _ => ⟨(), rfl⟩
  have htimer : Total timerFini :=
    .bind (.ifHeld (.bind .use fun _ => .free)) fun _ => .ifHeld .free
  have hcommand : Total commandFini :=
    .bind (.ifHeld .use) fun _ => .bind (.ifHeld .use) fun _ =>
      .bind (.bind (each_total (fun _ => .ifHeld .use) _) fun _ => each_total (fun _ => .ifHeld .free) _)
        fun _ => .ifHeld .free
  refine .bind hcommand fun _ => ?_
  refine .bind (canQuiesce_total false) fun _ => .bind (.ifHeld .use) fun _ => .bind hmaster fun _ => ?_
  refine .bind (.ifHeld .use) fun _ => .bind (.ifHeld .use) fun _ => .bind (.ifHeld .use) fun _ => ?_
  refine .bind (.ifHeld .free) fun _ => .bind hcan fun _ => .bind htimer fun _ => ?_
  exact .bind (.ifHeld .use) fun _ => .bind (.ifHeld .free) fun _ => .ifHeld .free

/-- One run of the owner, whichever calls fail. -/
theorem ownerEntry_ledger (opts : Options) (ans : Call → RtErr) (events : List Events) (w : World)
    (hw : w.live = ∅) : ∃ acts, (ownerEntry opts ans events w).acts = w.acts ++ acts
      ∧ Ledger Res.Needs ∅ acts ∅ ∧ (ownerEntry opts ans events w).live = ∅ := by
  have hclosed : Ledger.Closed Res.Needs ∅ := fun a ha => absurd ha (Set.notMem_empty a)
  have hcleanup (w' : World) (acts : List (Act Res)) (hledger : Ledger Res.Needs ∅ acts w'.live)
      (hacts : w'.acts = w.acts ++ acts)
      : ∃ acts, (ownerCleanup ans w').2.acts = w.acts ++ acts
        ∧ Ledger Res.Needs ∅ acts ∅ ∧ (ownerCleanup ans w').2.live = ∅ := by
    obtain ⟨acts', hacts', hledger', hempty⟩ := ownerCleanup_does w' (hledger.closed hclosed)
    obtain ⟨_, hok⟩ := @ownerCleanup_total ans w'
    have hend := hempty _ hok
    rw [hend] at hledger'
    exact ⟨acts ++ acts', by rw [hacts', hacts, List.append_assoc], hledger.append hledger', hend⟩
  obtain ⟨acts, hacts, hledger, hok⟩ := @ownerInit_does opts ans
    { w with runtimeError := .ok } hw
  rw [show ({ w with runtimeError := .ok } : World).live = ∅ from hw] at hledger
  unfold ownerEntry
  rcases hrun : ownerInit opts ans { w with runtimeError := .ok } with ⟨⟨err⟩ | ⟨⟩, w'⟩
  . rw [hrun] at hacts hledger
    exact hcleanup w' acts hledger hacts
  . rw [hrun] at hacts hledger hok
    obtain ⟨acts', hacts', hledger', -⟩ := @iterates_does opts events w' (hok _ rfl)
    exact hcleanup _ (acts ++ acts') (hledger.append hledger')
      (by rw [hacts', hacts, List.append_assoc])

/-- What one run of the owner depends on. -/
structure Trial where
  opts : Options
  ans : Call → RtErr
  events : List Events

/-- `lely_rtt_runtime_create`, and then one owner after the other. -/
def runs (trials : List Trial) : World :=
  trials.foldl (fun w trial => ownerEntry trial.opts trial.ans trial.events w)
    ⟨fun _ => false, false, .ok, false, []⟩

/--
However often a runtime is started, whichever calls fail and whatever becomes of the Client-SDOs
meanwhile, its owners make nothing twice and nothing before what it needs, use nothing that is not there,
and in the end have freed each thing as often as they have made it, never while something that needs it
is still there, and have cleared the pointer or the flag that said so.
-/
theorem owners_leave_nothing (trials : List Trial)
    : Ledger Res.Needs ∅ (runs trials).acts ∅ ∧ (∀ a, (runs trials).held a = false)
      ∧ ∀ a, (runs trials).acts.count (.make a) = (runs trials).acts.count (.free a) := by
  have hrun : ∀ w : World, Ledger Res.Needs ∅ w.acts ∅ → w.live = ∅ →
      Ledger Res.Needs ∅ (trials.foldl (fun w trial => ownerEntry trial.opts trial.ans trial.events w)
        w).acts ∅ ∧ (trials.foldl (fun w trial => ownerEntry trial.opts trial.ans trial.events w)
        w).live = ∅ := by
    induction trials with
    | nil => exact fun w hledger hlive => ⟨hledger, hlive⟩
    | cons trial rest ih =>
      intro w hledger hlive
      obtain ⟨acts, hacts, hledger', hlive'⟩ := ownerEntry_ledger trial.opts trial.ans trial.events w hlive
      exact ih _ (hacts ▸ hledger.append hledger') hlive'
  have hlast : Ledger Res.Needs ∅ (runs trials).acts ∅ ∧ (runs trials).live = ∅ :=
    hrun ⟨fun _ => false, false, .ok, false, []⟩ (.nil _) (by simp [World.live])
  obtain ⟨hledger, hlive⟩ := hlast
  refine ⟨hledger, fun a => ?_, fun a => ?_⟩
  . have hnot : a ∉ (runs trials).live := hlive ▸ Set.notMem_empty a
    simpa [World.live] using hnot
  . simpa using hledger.balanced a

end LelyRtt.Resources
