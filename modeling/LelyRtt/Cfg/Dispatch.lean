import LelyRtt.Cfg.Sync

/-!
This module contains the control flow of the five dispatchers that execute a synchronous request in one
call, and the proof that each of their paths completes the request exactly once, with its last access.
-/

namespace LelyRtt.Cfg

/-- What the owner does while it executes a request. -/
inductive Access where
  -- it reads fields of the request
  | fields
  -- it calls a function that reads or writes the request
  | hand
  -- it calls a function that does not
  | call
  -- `lely_rtt_master_sync_complete`
  | complete (result : RtErr)
  deriving DecidableEq, Repr

/-- The result with which the access completes the request. -/
def Access.result : Access → Option RtErr
  | .complete result => some result
  | .fields | .hand | .call => none

/-- Lely may run and call back during the access. -/
def Access.calls : Access → Bool
  | .hand | .call => true
  | .fields | .complete _ => false

/-- `enum lely_rtt_local_od_operation` -/
inductive LocalOdOperation where
  | read
  | write
  | other
  deriving DecidableEq, Repr

/-- `lely_rtt_local_od_dispatch`, with the results of the functions that read and write. -/
def localOdDispatch (masterDev : Bool) (operation : LocalOdOperation) (readOwner writeOwner : RtErr)
    : List Access :=
  if !masterDev then
    [.complete .busy]
  else
    match operation with
    | .read => [.fields, .hand, .complete readOwner]
    | .write => [.fields, .hand, .complete writeOwner]
    | .other => [.fields, .complete .inval]

/-- `enum lely_rtt_master_pdo_operation` -/
inductive PdoOperation where
  | event
  | getTransmission
  | setTransmission
  | other
  deriving DecidableEq, Repr

/-- `struct co_pdo_comm_par`. `cobidValid` is the bit that makes the PDO invalid. -/
structure CommPar where
  cobidValid : Bool
  trans : Nat

/-- `co_tpdo_t`. `map` is the number of objects that it maps. -/
structure Tpdo where
  stopped : Bool
  comm : Option CommPar
  map : Option Nat

/-- `CO_PDO_NUM_MAPS` -/
def pdoNumMaps : Nat := 0x40

/-- The error of an event. `event` is whether `co_tpdo_event` succeeds. -/
def tpdoEventError (syncPdo sync event : Bool) (tpdo : Tpdo) : RtErr :=
  match tpdo.comm, tpdo.map with
  | some comm, some n =>
    if comm.cobidValid ∨ !(syncPdo ∧ comm.trans = 0x00 ∨ comm.trans = 0xfe ∨ comm.trans = 0xff)
        ∨ n = 0 ∨ n > pdoNumMaps then
      .inval
    else if comm.trans = 0x00 ∧ !sync then
      .busy
    else if !event then
      .error
    else
      .ok
  | _, _ => .error

/--
`lely_rtt_master_pdo_dispatch`. `syncPdo` is `PKG_LELY_USING_MASTER_SYNC_PDO`, and `sync` is whether
there is a SYNC service.
-/
def pdoDispatch (syncPdo masterNmt : Bool) (operation : PdoOperation) (transmissionOwner : RtErr)
    (tpdo : Option Tpdo) (sync event : Bool) : List Access :=
  if !masterNmt then
    [.complete .busy]
  else if syncPdo ∧ (operation = .getTransmission ∨ operation = .setTransmission) then
    [.fields, .hand, .complete transmissionOwner]
  else if operation ≠ .event then
    [.fields, .complete .inval]
  else
    match tpdo with
    | none => [.fields, .call, .complete .busy]
    | some tpdo =>
      if tpdo.stopped then
        [.fields, .call, .complete .busy]
      else
        [.fields, .call, .complete (tpdoEventError syncPdo sync event tpdo)]

/-- `enum lely_rtt_master_sync_operation` -/
inductive SyncOperation where
  | setPeriod
  | other
  deriving DecidableEq, Repr

/-- `lely_rtt_master_sync_dispatch` -/
def syncDispatch (masterNmt masterDev : Bool) (operation : SyncOperation) (setPeriodOwner : RtErr)
    : List Access :=
  if !masterNmt ∨ !masterDev then
    [.complete .busy]
  else
    match operation with
    | .setPeriod => [.fields, .call, .complete setPeriodOwner]
    | .other => [.fields, .complete .inval]

/-- `enum lely_rtt_master_emcy_operation` -/
inductive EmcyOperation where
  | push (errorCode : BitVec 16)
  | pop
  | clear
  | other
  deriving DecidableEq, Repr

/--
`lely_rtt_master_emcy_dispatch`. `producerReady` is the result of
`lely_rtt_master_emcy_producer_ready` if there is an EMCY service, and `done` is whether Lely succeeds.
-/
def emcyDispatch (masterNmt : Bool) (producerReady : Option Bool) (operation : EmcyOperation)
    (done : Bool) : List Access :=
  if !masterNmt then
    [.complete .busy]
  else
    match producerReady with
    | none | some false => [.call, .complete .busy]
    | some true =>
      match operation with
      | .push errorCode =>
        if errorCode = 0 then
          [.call, .fields, .complete .inval]
        else
          -- Lely reads the manufacturer field where it is
          [.call, .fields, .hand, .complete (if done then .ok else .error)]
      | .pop | .clear => [.call, .fields, .call, .complete (if done then .ok else .error)]
      | .other => [.call, .fields, .complete .inval]

/-- `enum lely_rtt_master_time_operation` -/
inductive TimeOperation where
  | configure
  | send
  | other
  deriving DecidableEq, Repr

/-- `lely_rtt_master_time_dispatch` -/
def timeDispatch (masterNmt masterDev : Bool) (operation : TimeOperation)
    (configureOwner sendOwner : RtErr) : List Access :=
  if !masterNmt ∨ !masterDev then
    [.complete .busy]
  else
    match operation with
    | .configure => [.fields, .call, .complete configureOwner]
    | .send => [.fields, .call, .complete sendOwner]
    | .other => [.fields, .complete .inval]

/--
A request, with what its dispatcher finds and with the results of what it calls. The runtime and the
request that the queue holds are not null.
-/
inductive Execution where
  | localOd (masterDev : Bool) (operation : LocalOdOperation) (readOwner writeOwner : RtErr)
  | pdo (syncPdo masterNmt : Bool) (operation : PdoOperation) (transmissionOwner : RtErr)
      (tpdo : Option Tpdo) (sync event : Bool)
  | syncControl (masterNmt masterDev : Bool) (operation : SyncOperation) (setPeriodOwner : RtErr)
  | emcy (masterNmt : Bool) (producerReady : Option Bool) (operation : EmcyOperation) (done : Bool)
  | time (masterNmt masterDev : Bool) (operation : TimeOperation) (configureOwner sendOwner : RtErr)

/-- `lely_rtt_master_command_dispatch` of one request. -/
def Execution.dispatch : Execution → List Access
  | .localOd masterDev operation readOwner writeOwner =>
    localOdDispatch masterDev operation readOwner writeOwner
  | .pdo syncPdo masterNmt operation transmissionOwner tpdo sync event =>
    pdoDispatch syncPdo masterNmt operation transmissionOwner tpdo sync event
  | .syncControl masterNmt masterDev operation setPeriodOwner =>
    syncDispatch masterNmt masterDev operation setPeriodOwner
  | .emcy masterNmt producerReady operation done =>
    emcyDispatch masterNmt producerReady operation done
  | .time masterNmt masterDev operation configureOwner sendOwner =>
    timeDispatch masterNmt masterDev operation configureOwner sendOwner

/--
`lely_rtt_local_od_cancel_queued` and `lely_rtt_master_pdo_cancel_queued`, and the same for SYNC, EMCY
and TIME.
-/
def Execution.cancelQueued : Execution → List Access
  | .localOd .. | .pdo .. | .syncControl .. | .emcy .. | .time .. => [.complete .busy]

/-- The last access completes the request with `result`, and no other access completes it. -/
def Completes (accesses : List Access) (result : RtErr) : Prop :=
  ∃ before, accesses = before ++ [.complete result] ∧ ∀ a ∈ before, a.result = none

theorem Completes.complete (result : RtErr) : Completes [.complete result] result :=
  ⟨[], rfl, by simp⟩

theorem Completes.cons {a : Access} {accesses : List Access} {result : RtErr} (ha : a.result = none)
    (h : Completes accesses result) : Completes (a :: accesses) result := by
  obtain ⟨before, rfl, hbefore⟩ := h
  refine ⟨a :: before, rfl, ?_⟩
  intro b hb
  obtain rfl | hb := List.mem_cons.mp hb
  . exact ha
  . exact hbefore b hb

/-- There are two accesses before the completion. -/
theorem Completes.cons_cons {a b : Access} {result : RtErr} (ha : a.result = none) (hb : b.result = none)
    : Completes [a, b, .complete result] result :=
  .cons ha (.cons hb (.complete result))

theorem localOdDispatch_completes (masterDev : Bool) (operation : LocalOdOperation)
    (readOwner writeOwner : RtErr)
    : ∃ result, Completes (localOdDispatch masterDev operation readOwner writeOwner) result := by
  unfold localOdDispatch
  split
  . exact ⟨_, .complete _⟩
  . cases operation with
    | read | write => exact ⟨_, .cons_cons rfl rfl⟩
    | other => exact ⟨_, .cons rfl (.complete _)⟩

theorem pdoDispatch_completes (syncPdo masterNmt : Bool) (operation : PdoOperation)
    (transmissionOwner : RtErr) (tpdo : Option Tpdo) (sync event : Bool)
    : ∃ result, Completes
        (pdoDispatch syncPdo masterNmt operation transmissionOwner tpdo sync event) result := by
  unfold pdoDispatch
  split
  . exact ⟨_, .complete _⟩
  split
  . exact ⟨_, .cons_cons rfl rfl⟩
  split
  . exact ⟨_, .cons rfl (.complete _)⟩
  cases tpdo with
  | none => exact ⟨_, .cons_cons rfl rfl⟩
  | some tpdo =>
    dsimp only
    split <;> exact ⟨_, .cons_cons rfl rfl⟩

theorem syncDispatch_completes (masterNmt masterDev : Bool) (operation : SyncOperation)
    (setPeriodOwner : RtErr)
    : ∃ result, Completes (syncDispatch masterNmt masterDev operation setPeriodOwner) result := by
  unfold syncDispatch
  split
  . exact ⟨_, .complete _⟩
  . cases operation with
    | setPeriod => exact ⟨_, .cons_cons rfl rfl⟩
    | other => exact ⟨_, .cons rfl (.complete _)⟩

theorem emcyDispatch_completes (masterNmt : Bool) (producerReady : Option Bool)
    (operation : EmcyOperation) (done : Bool)
    : ∃ result, Completes (emcyDispatch masterNmt producerReady operation done) result := by
  unfold emcyDispatch
  split
  . exact ⟨_, .complete _⟩
  match producerReady with
  | none | some false => exact ⟨_, .cons rfl (.complete _)⟩
  | some true =>
    cases operation with
    | push errorCode =>
      dsimp only
      split
      . exact ⟨_, .cons_cons rfl rfl⟩
      . exact ⟨_, .cons rfl (.cons_cons rfl rfl)⟩
    | pop | clear => exact ⟨_, .cons rfl (.cons_cons rfl rfl)⟩
    | other => exact ⟨_, .cons_cons rfl rfl⟩

theorem timeDispatch_completes (masterNmt masterDev : Bool) (operation : TimeOperation)
    (configureOwner sendOwner : RtErr)
    : ∃ result,
        Completes (timeDispatch masterNmt masterDev operation configureOwner sendOwner) result := by
  unfold timeDispatch
  split
  . exact ⟨_, .complete _⟩
  . cases operation with
    | configure | send => exact ⟨_, .cons_cons rfl rfl⟩
    | other => exact ⟨_, .cons rfl (.complete _)⟩

namespace Execution

theorem dispatch_completes (e : Execution) : ∃ result, Completes e.dispatch result := by
  cases e with
  | localOd => exact localOdDispatch_completes ..
  | pdo => exact pdoDispatch_completes ..
  | syncControl => exact syncDispatch_completes ..
  | emcy => exact emcyDispatch_completes ..
  | time => exact timeDispatch_completes ..

theorem cancelQueued_completes (e : Execution) : Completes e.cancelQueued .busy := by
  cases e <;> exact .complete _

end Execution

/-! ### The dispatchers within the runs of the owner -/

variable {ρ : Type} [DecidableEq ρ] {node : ρ → Nat} {isCfg : ρ → Bool} {s s₁ s' : System ρ}
  {r : ρ} {rest : List ρ}

/--
The owner makes the accesses to `r` and enters `lely_rtt_master_sync_complete` with the last. The threads
take their steps at any point, and Lely calls back where it is called.
-/
inductive Plays (node : ρ → Nat) (isCfg : ρ → Bool) (r : ρ) : List Access → System ρ → System ρ → Prop
  | access {a accesses s s'} : a.result = none → Plays node isCfg r accesses s s' →
      Plays node isCfg r (a :: accesses) s s'
  | thread {accesses s s₁ s'} : CallStep s s₁ → s₁.executing = some r →
      Plays node isCfg r accesses s₁ s' → Plays node isCfg r accesses s s'
  | callback {a accesses accessed s s₁ s'} : a.calls = true → OwnerStep node isCfg s accessed s₁ →
      s₁.executing = some r → Plays node isCfg r (a :: accesses) s₁ s' →
      Plays node isCfg r (a :: accesses) s s'
  | complete {result s} : s.completing = none → s.cfg.stack = [] →
      Plays node isCfg r [.complete result] s ({ s with executing := none }.complete r result)

/-- The request at the head of the queue when the owner takes it to execute it. -/
def System.received (s : System ρ) (r : ρ) (rest : List ρ) : System ρ :=
  { s.setPlace r .executed with commandMq := some rest, executing := some r }

/-- The owner may take `r` from the queue. -/
structure System.Receives (isCfg : ρ → Bool) (s : System ρ) (r : ρ) (rest : List ρ) : Prop where
  phase : s.phase = .running
  completing : s.completing = none
  executing : s.executing = none
  stack : s.cfg.stack = []
  commandMq : s.commandMq = some (r :: rest)
  isCfg : isCfg r = false

/-- The accesses are steps of the runs, which end where the completion begins. -/
theorem Plays.runs {accesses : List Access} (h : Plays node isCfg r accesses s s')
    (hexecuting : s.executing = some r) (hruns : Runs node isCfg s)
    : Runs node isCfg s' ∧ ∃ result, accesses.getLast? = some (.complete result)
      ∧ s'.executing = none ∧ s'.completing = some (r, result, .load) := by
  induction h with
  | @access a accesses s s' ha h ih =>
    obtain ⟨hruns', result, hlast, hdone⟩ := ih hexecuting hruns
    exact ⟨hruns', result, by simp [List.getLast?_cons, hlast], hdone⟩
  | thread hstep hexecuting' h ih => exact ih hexecuting' (.call hruns hstep)
  | callback hcalls hstep hexecuting' h ih => exact ih hexecuting' (.owner hruns hstep)
  | @complete result s hcompleting hstack =>
    exact ⟨.owner hruns (.executed r result hcompleting hexecuting hstack), result, rfl, rfl, rfl⟩

/-- Without callbacks and other threads the accesses follow one another to the completion. -/
theorem Completes.plays {accesses : List Access} {result : RtErr} (h : Completes accesses result)
    (hcompleting : s.completing = none) (hstack : s.cfg.stack = [])
    : Plays node isCfg r accesses s ({ s with executing := none }.complete r result) := by
  obtain ⟨before, rfl, hbefore⟩ := h
  induction before with
  | nil => exact .complete hcompleting hstack
  | cons a before ih =>
    exact .access (hbefore a (by simp)) (ih fun b hb => hbefore b (by simp [hb]))

/--
From every state in which the owner may take the request, its dispatcher runs to the one completion, and
wherever the other threads and the callbacks of Lely have interfered, what it has done are steps of the
owner that execute the request and then complete it.
-/
theorem Execution.dispatch_runs (e : Execution) (hruns : Runs node isCfg s)
    (hs : s.Receives isCfg r rest)
    : ∃ result, Completes e.dispatch result
      ∧ (∃ s', Plays node isCfg r e.dispatch (s.received r rest) s')
      ∧ ∀ s', Plays node isCfg r e.dispatch (s.received r rest) s' →
        Runs node isCfg s' ∧ s'.executing = none ∧ s'.completing = some (r, result, .load) := by
  obtain ⟨result, hcompletes⟩ := e.dispatch_completes
  refine ⟨result, hcompletes, ⟨_, hcompletes.plays hs.completing hs.stack⟩, ?_⟩
  intro s' hplays
  have hreceived : Runs node isCfg (s.received r rest) :=
    .owner hruns (.execute r rest hs.phase hs.completing hs.executing hs.stack hs.commandMq hs.isCfg)
  obtain ⟨hruns', result', hlast, hexecuting, hcompleting⟩ := hplays.runs rfl hreceived
  obtain ⟨before, heq, _⟩ := hcompletes
  obtain rfl : result = result' := by simpa [heq] using hlast
  exact ⟨hruns', hexecuting, hcompleting⟩

/-- A request that is still queued at the end is completed by its one access. -/
theorem Execution.cancelQueued_runs (e : Execution) (hruns : Runs node isCfg s)
    (hphase : s.phase = .drain) (hcompleting : s.completing = none)
    (hqueue : s.commandMq = some (r :: rest)) (hcfg : isCfg r = false)
    : Completes e.cancelQueued .busy
      ∧ Runs node isCfg ({ s with commandMq := some rest }.complete r .busy) :=
  ⟨e.cancelQueued_completes, .owner hruns (.drainOther r rest hphase hcompleting hqueue hcfg)⟩

end LelyRtt.Cfg
