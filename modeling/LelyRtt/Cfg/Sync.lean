import LelyRtt.Cfg.Resume
import LelyRtt.Conc.Total
import LelyRtt.Protocol.Commands

/-!
This module contains the synchronous requests, which live on the stacks of their callers: the call
that posts a request and waits for it, and the owner that completes it from the dispatch, from the
callbacks and barriers of the configuration, and from the teardown.
-/

namespace LelyRtt.Cfg

section

variable {ρ : Type} [DecidableEq ρ] {node : ρ → Nat} {s s' : State ρ} {effect : Effect ρ}

/-- What a step from the command queue does to the active requests. -/
structure Takes (node : ρ → Nat) (s s' : State ρ) (effect : Effect ρ) (r : ρ) : Prop where
  accesses : effect.accesses = [r]
  dispatched : s'.dispatched = s.dispatched ++ [r]
  result : effect.completes = some r ∧ s'.completed = s.completed ++ [r] ∧ s'.cfgActive = s.cfgActive
    ∨ effect.completes = none ∧ s'.completed = s.completed ∧ s.cfgActive (node r) = none
      ∧ s'.cfgActive = Function.update s.cfgActive (node r) (some r)

/-- What any other step does to the active requests. -/
structure Keeps (node : ρ → Nat) (s s' : State ρ) (effect : Effect ρ) : Prop where
  accesses : ∀ r ∈ effect.accesses, s.cfgActive (node r) = some r
  dispatched : s'.dispatched = s.dispatched
  result : effect.completes = none ∧ s'.completed = s.completed ∧ s'.cfgActive = s.cfgActive
    ∨ ∃ r, effect.completes = some r ∧ s'.completed = s.completed ++ [r]
      ∧ s.cfgActive (node r) = some r ∧ s'.cfgActive = Function.update s.cfgActive (node r) none

theorem State.complete_completed (s : State ρ) (n : Nat) (r : ρ) (status : Status) (err : RtErr)
    (ac : BitVec 32) : (s.complete n r status err ac).completed = s.completed ++ [r] := by
  rw [State.complete]
  split <;> rfl

/-- The active request is completed. -/
theorem State.complete_cfgActive {n : Nat} {r : ρ} (hle : n ≤ numNodes)
    (hactive : s.cfgActive n = some r) (status : Status) (err : RtErr) (ac : BitVec 32)
    : (s.complete n r status err ac).cfgActive = Function.update s.cfgActive n none := by
  rw [State.complete, if_pos ⟨hle, hactive⟩]
  rfl

theorem State.complete_cfgActive_of_ne {n : Nat} {r : ρ} (hactive : s.cfgActive n ≠ some r)
    (status : Status) (err : RtErr) (ac : BitVec 32)
    : (s.complete n r status err ac).cfgActive = s.cfgActive := by
  rw [State.complete, if_neg (fun hand => hactive hand.2)]
  rfl

omit [DecidableEq ρ] in
theorem Inv.accesses_active (h : Inv node s) {nodes : List Nat} {r : ρ}
    (hr : r ∈ nodes.filterMap s.cfgActive) : s.cfgActive (node r) = some r := by
  obtain ⟨n, _, hactive⟩ := List.mem_filterMap.mp hr
  rwa [(h.active n r hactive).1]

theorem Step.takes (h : Inv node s) (hstep : Step node s effect s')
    (horigin : effect.origin = .dispatch ∨ effect.origin = .drain)
    : ∃ r, r ∉ s.dispatched ∧ Takes node s s' effect r := by
  cases hstep with
  | dispatchRejected r info err hd herr =>
    refine ⟨r, hd.fresh, rfl, ?_, .inl ⟨rfl, ?_, ?_⟩⟩
    . simp [State.diagnose]
    . exact State.complete_completed _ _ _ _ _ _
    . exact State.complete_cfgActive_of_ne (s := s.diagnose (node r) r info)
        (h.not_active hd.fresh _) _ _ _
  | dispatchRefused r info hd herr =>
    refine ⟨r, hd.fresh, rfl, ?_, .inl ⟨rfl, ?_, ?_⟩⟩
    . simp [State.diagnose, State.activate, State.modify]
    . exact State.complete_completed _ _ _ _ _ _
    . have hnone := dispatchError_eq_none herr
      rw [State.complete_cfgActive hd.le (by simp [State.activate])]
      funext n
      by_cases hn : n = node r
      . simp [hn, hnone]
      . simp [State.activate, State.diagnose, State.modify, hn]
  | dispatchAccepted r info hd herr =>
    exact ⟨r, hd.fresh, rfl, rfl, .inr ⟨rfl, rfl, dispatchError_eq_none herr, rfl⟩⟩
  | cancelQueued r hd =>
    exact ⟨r, hd.fresh, rfl, rfl, .inl ⟨rfl, rfl, rfl⟩⟩
  | _ => simp at horigin

theorem State.confirm_completed (s : State ρ) (n : Nat) (r : ρ) (ac : BitVec 32)
    : (s.confirm n r ac).completed = s.completed ++ [r] := by
  rw [State.confirm]
  split
  . exact State.complete_completed _ _ _ _ _ _
  . split <;> exact State.complete_completed _ _ _ _ _ _

theorem State.confirm_cfgActive {n : Nat} {r : ρ} (hle : n ≤ numNodes)
    (hactive : s.cfgActive n = some r) (ac : BitVec 32)
    : (s.confirm n r ac).cfgActive = Function.update s.cfgActive n none := by
  rw [State.confirm]
  split
  . exact State.complete_cfgActive hle (by exact hactive) _ _ _
  . split <;> exact State.complete_cfgActive hle (by exact hactive) _ _ _

theorem Step.keeps (h : Inv node s) (hstep : Step node s effect s')
    (horigin : effect.origin ≠ .dispatch ∧ effect.origin ≠ .drain)
    : Keeps node s s' effect := by
  cases hstep with
  | reqFailed r rest hstack hdownload hactive =>
    refine ⟨by simpa using hactive, by simp, .inr ⟨r, rfl, State.complete_completed _ _ _ _ _ _, hactive, ?_⟩⟩
    exact State.complete_cfgActive (h.active _ r hactive).2.1 (by exact hactive) _ _ _
  | confirm r ac hlely hcon hdownload =>
    have hactive := h.con _ r hcon
    refine ⟨by simpa using hactive, by simp, .inr ⟨r, rfl, State.confirm_completed _ _ _ _, hactive, ?_⟩⟩
    exact State.confirm_cfgActive (h.active _ r hactive).2.1 hactive ac
  | retire n final r rest hstack hle hactive =>
    obtain rfl := (h.active n r hactive).1
    refine ⟨by simpa using hactive, by simp [State.cancel, State.modify],
      .inr ⟨r, rfl, State.complete_completed _ _ _ _ _ _, hactive, ?_⟩⟩
    exact State.complete_cfgActive (s := s.cancel r) hle hactive _ _ _
  | dispatchRejected | dispatchRefused | dispatchAccepted | cancelQueued => simp at horigin
  | nmtCommand id _ _ =>
    obtain ⟨heap, heq⟩ := cancelActive_eq s (targets id)
    exact ⟨fun r hr => h.accesses_active hr, by simp, .inl ⟨rfl, by rw [heq], by rw [heq]⟩⟩
  | prepareNmtDestroy _ =>
    obtain ⟨heap, heq⟩ := cancelActive_eq { s with cfgTearingDown := true } (targets 0)
    exact ⟨fun r hr => h.accesses_active hr, by simp, .inl ⟨rfl, by rw [heq], by rw [heq]⟩⟩
  | dcfStaged n r _ _ _ _ _ hactive _ | indDcf n r _ _ _ hactive _ | indFailed n r _ _ _ hactive _ =>
    obtain rfl := (h.active n r hactive).1
    exact ⟨by simpa using hactive, rfl, .inl ⟨rfl, rfl, rfl⟩⟩
  | _ => exact ⟨by simp, rfl, .inl ⟨rfl, rfl, rfl⟩⟩

/-- The teardown itself completes nothing. -/
theorem Step.keeps_teardown (h : Inv node s) (hstep : Step node s effect s')
    (horigin : effect.origin = .teardown)
    : effect.completes = none ∧ s'.dispatched = s.dispatched ∧ s'.cfgActive = s.cfgActive := by
  obtain ⟨_, hdispatched, hresult⟩ := hstep.keeps h (by simp [horigin])
  have hnone : effect.completes = none := by
    cases hstep <;> first | rfl | simp at horigin
  obtain ⟨_, _, hactive⟩ | ⟨r, hsome, _⟩ := hresult
  . exact ⟨hnone, hdispatched, hactive⟩
  . simp [hnone] at hsome

/-- When the NMT service is gone, only the last barrier still has requests to complete. -/
def State.Dead (s : State ρ) : Prop :=
  s.masterNmt = false → ∀ n r, s.cfgActive n = some r → ∃ m, s.stack = [.retire m true] ∧ m ≤ n

omit [DecidableEq ρ] in
theorem Start.dead (h : Start s) : s.Dead := by
  intro _ n r hactive
  simp [h.cfgActive] at hactive

theorem State.complete_masterNmt (s : State ρ) (n : Nat) (r : ρ) (status : Status) (err : RtErr)
    (ac : BitVec 32) : (s.complete n r status err ac).masterNmt = s.masterNmt := by
  rw [State.complete]
  split <;> rfl

theorem State.confirm_masterNmt (s : State ρ) (n : Nat) (r : ρ) (ac : BitVec 32)
    : (s.confirm n r ac).masterNmt = s.masterNmt := by
  rw [State.confirm]
  split
  . exact State.complete_masterNmt _ _ _ _ _ _
  . split <;> exact State.complete_masterNmt _ _ _ _ _ _

omit [DecidableEq ρ] in
/-- A step that starts outside the last barrier. -/
theorem State.Dead.of_ne (h : s.Dead) (hnmt : s'.masterNmt = s.masterNmt)
    (hstack : ∀ m, s.stack ≠ [.retire m true])
    (hactive : ∀ n r, s'.cfgActive n = some r → ∃ n r, s.cfgActive n = some r) : s'.Dead := by
  intro hfalse n r hr
  obtain ⟨n, r, hr⟩ := hactive n r hr
  obtain ⟨m, hm, _⟩ := h (hnmt ▸ hfalse) n r hr
  exact absurd hm (hstack m)

omit [DecidableEq ρ] in
theorem State.Dead.of_alive (hnmt : s.masterNmt = true) (hsame : s'.masterNmt = s.masterNmt)
    : s'.Dead := by
  intro hfalse
  simp [hsame, hnmt] at hfalse

omit [DecidableEq ρ] in
theorem masterNmt_of_dispatchError {n : Nat} {info : NodeInfo} (h : s.dispatchError n info = none)
    : s.masterNmt = true := by
  cases hnmt : s.masterNmt with
  | true => rfl
  | false => simp [State.dispatchError, hnmt] at h

theorem State.Dead.step (hdead : s.Dead) (h : Inv node s) (hstep : Step node s effect s')
    : s'.Dead := by
  have hsame : ∀ n r, s.cfgActive n = some r → ∃ n r, s.cfgActive n = some r :=
    fun n r hr => ⟨n, r, hr⟩
  cases hstep with
  | dispatchRejected r info err hd herr =>
    refine hdead.of_ne (State.complete_masterNmt _ _ _ _ _ _) (by simp [hd.stack]) ?_
    rw [State.complete_cfgActive_of_ne (s := s.diagnose (node r) r info) (h.not_active hd.fresh _)]
    exact hsame
  | dispatchRefused r info hd herr =>
    exact .of_alive (masterNmt_of_dispatchError herr) (State.complete_masterNmt _ _ _ _ _ _)
  | dispatchAccepted r info hd herr => exact .of_alive (masterNmt_of_dispatchError herr) rfl
  | reqFailed r rest hstack hdownload hactive =>
    refine hdead.of_ne (State.complete_masterNmt _ _ _ _ _ _) (by simp [hstack]) ?_
    exact fun _ _ _ => ⟨_, _, hactive⟩
  | «return» frame rest hstack hframe =>
    refine hdead.of_ne rfl ?_ hsame
    intro m hm
    rw [hstack] at hm
    obtain ⟨rfl, _⟩ := List.cons.inj hm
    simp at hframe
  | call hstack | reap hstack | nmtDestroy hstack _ _ =>
    exact hdead.of_ne rfl (by simp [hstack]) hsame
  | confirm r ac hlely hcon hdownload => exact .of_alive hlely.1 (State.confirm_masterNmt _ _ _ _)
  | dcfDropped n hlely _ _ | dcfStaged n r _ _ _ hlely _ _ _ | indIgnored hlely
  | indNoop n hlely _ _ | indDcf n r _ hlely _ _ _ | indFailed n r _ hlely _ _ _
  | localState hlely _ => exact .of_alive hlely.1 rfl
  | reapNone n rest hstack _ _ | reapDropped n rest hstack _ _ _
  | reapPassed n _ _ rest hstack _ _ _ _ _ _ | reapEnd n rest hstack _ =>
    exact hdead.of_ne rfl (by simp [hstack]) hsame
  | nmtCommand id hstack _ =>
    obtain ⟨heap, heq⟩ := cancelActive_eq s (targets id)
    rw [heq]
    exact hdead.of_ne rfl (by simp [hstack]) hsame
  | prepareNmtDestroy hstack =>
    obtain ⟨heap, heq⟩ := cancelActive_eq { s with cfgTearingDown := true } (targets 0)
    rw [heq]
    exact hdead.of_ne rfl (by simp [hstack]) hsame
  | cancelQueued r hd => exact hdead.of_ne rfl (by simp [hd.stack]) hsame
  | retireNone n final rest hstack hle hnone =>
    intro hfalse m r hr
    obtain ⟨m', hm', hle'⟩ := hdead hfalse m r hr
    obtain ⟨hframe, rfl⟩ := List.cons.inj (hstack.symm.trans hm')
    obtain ⟨rfl, rfl⟩ : n = m' ∧ final = true := by simpa using hframe
    refine ⟨n + 1, rfl, ?_⟩
    have hne : m ≠ n := by
      rintro rfl
      simp [hnone] at hr
    omega
  | retire n final r rest hstack hle hactive =>
    intro hfalse m q hq
    have hactive' : ((s.cancel r).complete n r .canceled .ok 0).cfgActive
        = Function.update s.cfgActive n none := State.complete_cfgActive (s := s.cancel r) hle hactive _ _ _
    have hfalse' : s.masterNmt = false :=
      (State.complete_masterNmt (s.cancel r) n r .canceled .ok 0).symm.trans hfalse
    have hq' : Function.update s.cfgActive n none m = some q := (congrFun hactive' m).symm.trans hq
    have hne : m ≠ n := by
      rintro rfl
      simp at hq'
    obtain ⟨m', hm', hle'⟩ := hdead hfalse' m q (by simpa [hne] using hq')
    obtain ⟨hframe, rfl⟩ := List.cons.inj (hstack.symm.trans hm')
    obtain ⟨rfl, rfl⟩ : n = m' ∧ final = true := by simpa using hframe
    exact ⟨n + 1, rfl, by omega⟩
  | retireEnd n rest hstack hlt => exact hdead.of_ne rfl (by simp [hstack]) hsame
  | destroyed n rest hstack hlt =>
    intro hfalse m r hr
    obtain ⟨m', hm', hle'⟩ := hdead hfalse m r hr
    obtain ⟨hframe, _⟩ := List.cons.inj (hstack.symm.trans hm')
    obtain ⟨rfl, _⟩ : n = m' ∧ true = true := by simpa using hframe
    have hle := (h.active m r hr).2.1
    omega
  | nmtDestroyReturn hstack hdownload =>
    intro _ n r hr
    exact ⟨1, rfl, (h.active n r hr).2.2.1⟩

end

/-! ### The callers and the owner -/

/-- `struct lely_rtt_master_sync` -/
structure Sync where
  event : Bool := false
  done : Bool := false
  completionRefs : Nat := 0
  result : RtErr := .busy
  initialized : Bool := false
  deriving DecidableEq, Repr

/-- Where the caller of a request is. `posted` is whether the post has returned `RT_EOK`. -/
inductive CallerPc where
  | idle
  | posting (pc : PostPc)
  -- `lely_rtt_master_sync_wait`
  | waitDone
  | waitReceive
  | waitResult
  -- `lely_rtt_master_sync_fini`
  | finiRefs (posted : Bool) (result : RtErr)
  | finiDetach (posted : Bool) (result : RtErr)
  | returned (posted : Bool) (result : RtErr)
  deriving DecidableEq

/-- The next atomic step of `lely_rtt_master_sync_complete`. -/
inductive CompletePc where
  | load
  | storeResult
  | storeRefs
  | storeDone
  | send
  | clearRefs
  deriving DecidableEq, Repr

/-- Where the owner is in `lely_rtt_owner_entry`. `again` is inside `lely_rtt_master_command_fini`. -/
inductive Phase where
  | init
  -- `lely_rtt_master_command_admission_open`
  | openTest
  | openStore
  | openCheck
  | openClose
  | running
  -- `lely_rtt_owner_cleanup`
  | latch (again : Bool)
  | quiesce (again : Bool)
  | wait (again : Bool)
  | drain
  | prepare
  | deleteQueue
  | destroy
  | finished
  deriving DecidableEq, Repr

/-- History: who has a request. -/
inductive Place where
  | unsent
  | queued
  -- it is the active configuration of its node
  | active
  -- the owner executes it
  | executed
  -- the owner completes it with a result
  | completing (result : RtErr) (pc : CompletePc)
  | completed (result : RtErr)
  deriving DecidableEq

/--
The owner and the callers of the synchronous requests. `otherRefs` counts the references to the queue
of the threads that post other commands. `place` and `log` are history: who has a request, and the
completions that took effect with their results.
-/
structure System (ρ : Type) where
  cfg : State ρ
  sync : ρ → Sync
  caller : ρ → CallerPc
  commandRefs : Int
  otherRefs : Nat
  commandStopLatched : Bool
  commandQuiescing : Bool
  /-- The synchronous requests in the command queue. -/
  commandMq : Option (List ρ)
  phase : Phase
  /-- The request that the owner executes. -/
  executing : Option ρ
  /-- The request that the owner completes. -/
  completing : Option (ρ × RtErr × CompletePc)
  place : ρ → Place
  log : List (ρ × RtErr)

namespace System

variable {ρ : Type} [DecidableEq ρ]

def queue (s : System ρ) : List ρ := s.commandMq.getD []

def setCaller (s : System ρ) (r : ρ) (pc : CallerPc) : System ρ :=
  { s with caller := Function.update s.caller r pc }

def setSync (s : System ρ) (r : ρ) (sync : Sync) : System ρ :=
  { s with sync := Function.update s.sync r sync }

def setPlace (s : System ρ) (r : ρ) (place : Place) : System ρ :=
  { s with place := Function.update s.place r place }

/-- The owner calls `lely_rtt_master_sync_complete`. -/
def complete (s : System ρ) (r : ρ) (result : RtErr) : System ρ :=
  { s.setPlace r (.completing result .load) with completing := some (r, result, .load) }

/-- The next step of `lely_rtt_master_sync_complete`, after a change to the request. -/
def goto (s : System ρ) (r : ρ) (result : RtErr) (pc : CompletePc) (sync : Sync) : System ρ :=
  { (s.setSync r sync).setPlace r (.completing result pc) with completing := some (r, result, pc) }

/-- A step of `lely_rtt_master_sync_complete` -/
def completeStep (s : System ρ) (r : ρ) (result : RtErr) (pc : CompletePc) : System ρ :=
  let sync := s.sync r
  match pc with
  | .load =>
    if !sync.initialized ∨ sync.done then
      { s.setPlace r (.completed sync.result) with completing := none }
    else
      s.goto r result .storeResult sync
  | .storeResult => s.goto r result .storeRefs { sync with result := result }
  | .storeRefs => s.goto r result .storeDone { sync with completionRefs := 1 }
  | .storeDone =>
    { s.goto r result .send { sync with done := true } with log := s.log ++ [(r, result)] }
  | .send => s.goto r result .clearRefs { sync with event := true }
  | .clearRefs =>
    {
      (s.setSync r { sync with completionRefs := 0 }).setPlace r (.completed result) with
        completing := none
    }

/-- What a step of the configuration code does to the requests that it completes. -/
def afterCfg (s : System ρ) (cfg : State ρ) (effect : Effect ρ) : System ρ :=
  match effect.completes with
  | some r => { s with cfg := cfg }.complete r .ok
  | none => { s with cfg := cfg }

/--
One step of the caller of `r`. `choice` is whether the checks and `lely_rtt_master_sync_init` succeed,
whether the queue is full, and whether a receive returns without the event.
-/
def callerStep (s : System ρ) (r : ρ) (choice : Bool) : System ρ :=
  let sync := s.sync r
  match s.caller r with
  | .idle =>
    if choice then
      (s.setSync r { initialized := true }).setCaller r (.posting .latched)
    else
      s.setCaller r (.returned false .inval)
  | .posting .latched =>
    s.setCaller r (if s.commandStopLatched then .finiRefs false .busy else .posting .quiescing)
  | .posting .quiescing =>
    s.setCaller r (if s.commandQuiescing then .finiRefs false .busy else .posting .add)
  | .posting .add =>
    { s.setCaller r (.posting .latchedAgain) with commandRefs := s.commandRefs + 1 }
  | .posting .latchedAgain =>
    s.setCaller r (.posting (if s.commandStopLatched then .undo else .quiescingAgain))
  | .posting .quiescingAgain =>
    s.setCaller r (.posting (if s.commandQuiescing then .undo else .queue))
  | .posting .undo =>
    { s.setCaller r (.finiRefs false .busy) with commandRefs := s.commandRefs - 1 }
  | .posting .queue =>
    s.setCaller r (.posting (if s.commandMq.isSome then .send else .release .busy))
  | .posting .send =>
    if choice then
      s.setCaller r (.posting (.release .full))
    else
      {
        (s.setPlace r .queued).setCaller r (.posting .event) with
          commandMq := some (s.queue ++ [r])
      }
  | .posting .event => s.setCaller r (.posting (.release .ok))
  | .posting (.release err) =>
    {
      s.setCaller r (if err = .ok then .waitDone else .finiRefs false err) with
        commandRefs := s.commandRefs - 1
    }
  | .waitDone => s.setCaller r (if sync.done then .waitResult else .waitReceive)
  | .waitReceive =>
    if sync.event then
      (s.setSync r { sync with event := false }).setCaller r .waitDone
    else if choice then
      s.setCaller r .waitDone
    else
      s
  | .waitResult => s.setCaller r (.finiRefs true sync.result)
  | .finiRefs posted result =>
    if sync.completionRefs = 0 then s.setCaller r (.finiDetach posted result) else s
  | .finiDetach posted result =>
    (s.setSync r { sync with initialized := false }).setCaller r (.returned posted result)
  | .returned _ _ => s

end System

section

variable {ρ : Type} [DecidableEq ρ]

/--
The steps of the owner, with the requests that they access. `isCfg r` is whether `r` is a configuration;
every other request is executed by one call that may make callbacks: `execute` begins it, and `executed`
is its only completion.
-/
inductive OwnerStep (node : ρ → Nat) (isCfg : ρ → Bool) (s : System ρ) : List ρ → System ρ → Prop
  | complete (r : ρ) (result : RtErr) (pc : CompletePc) : s.completing = some (r, result, pc) →
      OwnerStep node isCfg s [r] (s.completeStep r result pc)
  | createQueue (phase : Phase) : s.phase = .init → (phase = .openTest ∨ phase = .latch false) →
      OwnerStep node isCfg s [] { s with commandMq := some [], phase := phase }
  | initFailed : s.phase = .init → OwnerStep node isCfg s [] { s with phase := .latch false }
  | openTest : s.phase = .openTest →
      OwnerStep node isCfg s []
        { s with phase := if !s.cfg.masterNmt ∨ s.commandStopLatched then .running else .openStore }
  | openStore : s.phase = .openStore →
      OwnerStep node isCfg s [] { s with commandQuiescing := false, phase := .openCheck }
  | openCheck : s.phase = .openCheck →
      OwnerStep node isCfg s []
        { s with phase := if s.commandStopLatched then .openClose else .running }
  | openClose : s.phase = .openClose →
      OwnerStep node isCfg s [] { s with commandQuiescing := true, phase := .running }
  | cfg (effect : Effect ρ) (cfg : State ρ) : s.phase = .running → s.completing = none →
      Step node s.cfg effect cfg →
      (effect.origin = .inner ∨ effect.origin = .loop ∧ s.executing = none) →
      OwnerStep node isCfg s effect.accesses (s.afterCfg cfg effect)
  | dispatch (r : ρ) (rest : List ρ) (effect : Effect ρ) (cfg : State ρ) : s.phase = .running →
      s.completing = none → s.executing = none → s.commandMq = some (r :: rest) →
      isCfg r = true → Step node s.cfg effect cfg → effect.origin = .dispatch →
      effect.accesses = [r] →
      OwnerStep node isCfg s [r]
        (({ s with commandMq := some rest }.setPlace r .active).afterCfg cfg effect)
  | execute (r : ρ) (rest : List ρ) : s.phase = .running → s.completing = none →
      s.executing = none → s.cfg.stack = [] → s.commandMq = some (r :: rest) → isCfg r = false →
      OwnerStep node isCfg s [r]
        { s.setPlace r .executed with commandMq := some rest, executing := some r }
  | executed (r : ρ) (result : RtErr) : s.completing = none → s.executing = some r →
      s.cfg.stack = [] →
      OwnerStep node isCfg s [r] ({ s with executing := none }.complete r result)
  | leave : s.phase = .running → s.completing = none → s.executing = none → s.cfg.stack = [] →
      OwnerStep node isCfg s [] { s with phase := .latch false }
  | latch (again : Bool) : s.phase = .latch again →
      OwnerStep node isCfg s [] { s with commandStopLatched := true, phase := .quiesce again }
  | quiesce (again : Bool) : s.phase = .quiesce again →
      OwnerStep node isCfg s [] { s with commandQuiescing := true, phase := .wait again }
  | wait (again : Bool) : s.phase = .wait again → s.commandRefs = 0 →
      OwnerStep node isCfg s [] { s with phase := if again then .drain else .latch true }
  | drainCfg (r : ρ) (rest : List ρ) (effect : Effect ρ) (cfg : State ρ) : s.phase = .drain →
      s.completing = none → s.commandMq = some (r :: rest) → isCfg r = true →
      Step node s.cfg effect cfg → effect.origin = .drain → effect.accesses = [r] →
      OwnerStep node isCfg s [r]
        (({ s with commandMq := some rest }.setPlace r .active).afterCfg cfg effect)
  | drainOther (r : ρ) (rest : List ρ) : s.phase = .drain → s.completing = none →
      s.commandMq = some (r :: rest) → isCfg r = false →
      OwnerStep node isCfg s [r] ({ s with commandMq := some rest }.complete r .busy)
  | drainEnd : s.phase = .drain → s.completing = none → s.queue = [] →
      OwnerStep node isCfg s [] { s with phase := .prepare }
  | prepare (effect : Effect ρ) (cfg : State ρ) : s.phase = .prepare →
      Step node s.cfg effect cfg → effect.origin = .teardown → cfg.stack = [] →
      OwnerStep node isCfg s effect.accesses { s.afterCfg cfg effect with phase := .deleteQueue }
  | deleteQueue : s.phase = .deleteQueue →
      OwnerStep node isCfg s [] { s with commandMq := none, phase := .destroy }
  | destroy (effect : Effect ρ) (cfg : State ρ) : s.phase = .destroy → s.completing = none →
      Step node s.cfg effect cfg → (effect.origin = .teardown ∨ effect.origin = .inner) →
      OwnerStep node isCfg s effect.accesses (s.afterCfg cfg effect)
  | finish : s.phase = .destroy → s.completing = none → s.cfg.masterNmt = false →
      s.cfg.stack = [] → OwnerStep node isCfg s [] { s with phase := .finished }

/-- The steps of the callers, of the threads that post other commands, and of a stop. -/
inductive CallStep (s : System ρ) : System ρ → Prop
  | caller (r : ρ) (choice : Bool) : CallStep s (s.callerStep r choice)
  | otherAdd : CallStep s
      { s with commandRefs := s.commandRefs + 1, otherRefs := s.otherRefs + 1 }
  | otherSub (n : Nat) : s.otherRefs = n + 1 →
      CallStep s { s with commandRefs := s.commandRefs - 1, otherRefs := n }
  | stopLatch : CallStep s { s with commandStopLatched := true }
  | stopQuiesce : s.commandStopLatched = true → CallStep s { s with commandQuiescing := true }

/-- The state behind `lely_rtt_master_command_prepare`, before anyone has called. -/
structure Begin (s : System ρ) : Prop where
  cfg : Start s.cfg
  sync : ∀ r, s.sync r = {}
  caller : ∀ r, s.caller r = .idle
  commandRefs : s.commandRefs = 0
  otherRefs : s.otherRefs = 0
  commandStopLatched : s.commandStopLatched = false
  commandQuiescing : s.commandQuiescing = true
  commandMq : s.commandMq = none
  phase : s.phase = .init
  executing : s.executing = none
  completing : s.completing = none
  place : ∀ r, s.place r = .unsent
  log : s.log = []

/-- The states that the owner and the callers reach. -/
inductive Runs (node : ρ → Nat) (isCfg : ρ → Bool) : System ρ → Prop
  | start {s} : Begin s → Runs node isCfg s
  | owner {s accesses s'} : Runs node isCfg s → OwnerStep node isCfg s accesses s' →
      Runs node isCfg s'
  | call {s s'} : Runs node isCfg s → CallStep s s' → Runs node isCfg s'

end

end LelyRtt.Cfg
