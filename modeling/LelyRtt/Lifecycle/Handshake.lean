import LelyRtt.Basic
import Mathlib.Logic.Function.Basic
import Mathlib.Logic.Relation

/-!
This module contains `lely_rtt_runtime_start`, `lely_rtt_runtime_stop` and `lely_rtt_runtime_destroy`
as one controlling thread calls them, the owner threads that they create, and the proof that the event
bits READY, STOP and EXIT keep them in step.
-/

namespace LelyRtt.Lifecycle

/-- Why an owner left its loop. -/
inductive Leave where
  | stop
  | error
  deriving DecidableEq, Repr

/-- Where an owner thread is in `lely_rtt_owner_entry`. -/
inductive Phase where
  -- no such thread has been created
  | absent
  | created
  -- its startup failed and it was deleted
  | deleted
  | init
  -- `init_result` is stored; cleanup, then READY and EXIT
  | failing
  -- `init_result` is stored; READY is next
  | opening
  | loop
  -- cleanup, then EXIT
  | leaving (why : Leave)
  | exited
  deriving DecidableEq, Repr

/-- The thread may still access the runtime. -/
def Phase.Alive : Phase → Prop
  | .init | .failing | .opening | .loop | .leaving _ => True
  | _ => False

/-- An owner thread with the history of its run. -/
structure Owner where
  phase : Phase := .absent
  /-- What it stored to `init_result`. -/
  reported : Option RtErr := none
  /-- The errors of the run in the order in which they came up. -/
  latched : List RtErr := []
  /-- A stop, or a start that gave up, has sent STOP while this was the owner. -/
  stopCalled : Bool := false
  /-- The owner has sent STOP to itself after an error. -/
  stopSelf : Bool := false

/-- How the last call returned. -/
inductive Returned where
  | rejected
  | noThread
  | startupFailed
  | started (owner : Nat)
  -- READY did not come in time
  | startTimeout (owner : Nat)
  -- the owner reported an error, and EXIT did not come in time
  | startExitTimeout (owner : Nat)
  | startFailed (owner : Nat) (result : RtErr)
  | alreadyStopped
  | stopNotSent (owner : Nat)
  | stopTimeout (owner : Nat)
  | stopped (owner : Nat) (result : RtErr)
  | destroyIgnored
  deriving DecidableEq, Repr

/-- Where the controlling thread is. -/
inductive Control where
  | idle (last : Option Returned)
  -- `lely_rtt_clear_events`
  | startClear
  | startReset
  | startCreate
  | startStartup (owner : Nat)
  | startReady (owner : Nat)
  | startGiveUp (owner : Nat)
  | startResult (owner : Nat)
  | startExit (owner : Nat)
  | stopSend (owner : Nat)
  | stopExit (owner : Nat)
  | freed
  deriving DecidableEq, Repr

structure State where
  control : Control := .idle none
  ownerThread : Option Nat := none
  ready : Bool := false
  stop : Bool := false
  exit : Bool := false
  initResult : RtErr := .ok
  runtimeError : RtErr := .ok
  owners : Nat → Owner := fun _ => {}
  /-- The number of threads created so far. -/
  count : Nat := 0

namespace State

def Alive (s : State) (i : Nat) : Prop := (s.owners i).phase.Alive

def setOwner (s : State) (i : Nat) (owner : Owner) : State :=
  { s with owners := Function.update s.owners i owner }

def setPhase (s : State) (i : Nat) (phase : Phase) : State :=
  s.setOwner i { s.owners i with phase := phase }

/-- `lely_rtt_latch_error` by the owner `i` -/
def latch (s : State) (i : Nat) (err : RtErr) : State :=
  {
    s.setOwner i { s.owners i with latched := (s.owners i).latched ++ [err] } with
      runtimeError := if s.runtimeError = .ok then err else s.runtimeError
  }

/-- The controlling thread sends STOP to the owner `i`. -/
def callStop (s : State) (i : Nat) : State :=
  { s.setOwner i { s.owners i with stopCalled := true } with stop := true }

end State

/-- The steps of an owner thread. -/
inductive OwnerStep (s : State) (i : Nat) : State → Prop
  | latch (err : RtErr) : s.Alive i → err ≠ .ok → OwnerStep s i (s.latch i err)
  -- a timer that cannot be armed stops the owner after it has latched the error
  | stopSelf : s.Alive i → s.runtimeError ≠ .ok →
      OwnerStep s i { s.setOwner i { s.owners i with stopSelf := true } with stop := true }
  | initOk : (s.owners i).phase = .init →
      OwnerStep s i
        {
          s.setOwner i { s.owners i with phase := .opening, reported := some .ok } with
            initResult := .ok
        }
  | initFailed (err : RtErr) : (s.owners i).phase = .init → err ≠ .ok →
      OwnerStep s i
        {
          s.setOwner i { s.owners i with phase := .failing, reported := some err } with
            initResult := err
        }
  | sendReadyExit : (s.owners i).phase = .failing →
      OwnerStep s i { s.setPhase i .exited with ready := true, exit := true }
  | sendReady : (s.owners i).phase = .opening →
      OwnerStep s i { s.setPhase i .loop with ready := true }
  -- `rt_event_recv` returns STOP
  | recvStop : (s.owners i).phase = .loop → s.stop = true →
      OwnerStep s i { s.setPhase i (.leaving .stop) with stop := false }
  | recvFailed (err : RtErr) : (s.owners i).phase = .loop → err ≠ .ok →
      OwnerStep s i ((s.latch i err).setPhase i (.leaving .error))
  | errorFound : (s.owners i).phase = .loop → s.runtimeError ≠ .ok →
      OwnerStep s i (s.setPhase i (.leaving .error))
  | sendExit (why : Leave) : (s.owners i).phase = .leaving why →
      OwnerStep s i { s.setPhase i .exited with exit := true }

/-- The steps of the controlling thread. -/
inductive ControlStep (s : State) : State → Prop
  | start {last} : s.control = .idle last → s.ownerThread = none →
      ControlStep s { s with control := .startClear }
  | startRejected {last} : s.control = .idle last → s.ownerThread ≠ none →
      ControlStep s { s with control := .idle (some .rejected) }
  -- a receive without waiting takes all bits that are set
  | clear : s.control = .startClear → (s.ready ∨ s.stop ∨ s.exit) →
      ControlStep s { s with ready := false, stop := false, exit := false }
  | cleared : s.control = .startClear → ¬(s.ready ∨ s.stop ∨ s.exit) →
      ControlStep s { s with control := .startReset }
  | reset : s.control = .startReset →
      ControlStep s { s with control := .startCreate, initResult := .error, runtimeError := .ok }
  | noThread : s.control = .startCreate →
      ControlStep s { s with control := .idle (some .noThread) }
  | create : s.control = .startCreate →
      ControlStep s
        {
          s.setOwner s.count { phase := .created } with
            control := .startStartup s.count
            ownerThread := some s.count
            count := s.count + 1
        }
  | startup (i : Nat) : s.control = .startStartup i →
      ControlStep s { s.setPhase i .init with control := .startReady i }
  | startupFailed (i : Nat) : s.control = .startStartup i →
      ControlStep s
        { s.setPhase i .deleted with control := .idle (some .startupFailed), ownerThread := none }
  | recvReady (i : Nat) : s.control = .startReady i → s.ready = true →
      ControlStep s { s with control := .startResult i, ready := false }
  | readyTimeout (i : Nat) : s.control = .startReady i →
      ControlStep s { s with control := .startGiveUp i }
  | giveUp (i : Nat) : s.control = .startGiveUp i →
      ControlStep s { s.callStop i with control := .idle (some (.startTimeout i)) }
  | started (i : Nat) : s.control = .startResult i → s.initResult = .ok →
      ControlStep s { s with control := .idle (some (.started i)) }
  | initError (i : Nat) : s.control = .startResult i → s.initResult ≠ .ok →
      ControlStep s { s with control := .startExit i }
  | recvStartExit (i : Nat) : s.control = .startExit i → s.exit = true →
      ControlStep s
        {
          s with
            control := .idle (some (.startFailed i s.initResult))
            ownerThread := none
            exit := false
        }
  | startExitTimeout (i : Nat) : s.control = .startExit i →
      ControlStep s { s with control := .idle (some (.startExitTimeout i)) }
  | stopStopped {last} : s.control = .idle last → s.ownerThread = none →
      ControlStep s { s with control := .idle (some .alreadyStopped) }
  | stop {last} (i : Nat) : s.control = .idle last → s.ownerThread = some i →
      ControlStep s { s with control := .stopSend i }
  | stopSent (i : Nat) : s.control = .stopSend i →
      ControlStep s { s.callStop i with control := .stopExit i }
  | stopNotSent (i : Nat) : s.control = .stopSend i →
      ControlStep s { s with control := .idle (some (.stopNotSent i)) }
  | recvExit (i : Nat) : s.control = .stopExit i → s.exit = true →
      ControlStep s
        {
          s with
            control := .idle (some (.stopped i s.runtimeError))
            ownerThread := none
            exit := false
        }
  | exitTimeout (i : Nat) : s.control = .stopExit i →
      ControlStep s { s with control := .idle (some (.stopTimeout i)) }
  | destroyIgnored {last} : s.control = .idle last → s.ownerThread ≠ none →
      ControlStep s { s with control := .idle (some .destroyIgnored) }
  | destroy {last} : s.control = .idle last → s.ownerThread = none →
      ControlStep s { s with control := .freed }

inductive Step (s s' : State) : Prop
  | owner (i : Nat) : OwnerStep s i s' → Step s s'
  | control : ControlStep s s' → Step s s'

/-- The states that a run from a new runtime reaches. -/
def Reachable (s : State) : Prop := Relation.ReflTransGen Step {} s

/-! ### The invariant -/

/-- The first error of the run. -/
def Owner.firstError (owner : Owner) : RtErr := owner.latched.headD .ok

/-- The history of an owner fits its phase. -/
structure Owner.Ok (owner : Owner) : Prop where
  latched : ∀ err ∈ owner.latched, err ≠ .ok
  stopSelf : owner.stopSelf = true → owner.latched ≠ []
  leaving : owner.phase = .leaving .stop → owner.stopCalled = true ∨ owner.stopSelf = true
  reported : match owner.phase with
    | .absent | .created | .deleted | .init => owner.reported = none
    | .failing => ∃ err, err ≠ .ok ∧ owner.reported = some err
    | .opening | .loop | .leaving _ => owner.reported = some .ok
    | .exited => owner.reported ≠ none

/-- The shared fields belong to the run of the current owner. -/
structure State.Fits (s : State) (owner : Owner) : Prop where
  ready : s.ready = true → owner.reported ≠ none
  exit : s.exit = true → owner.phase = .exited
  stop : s.stop = true → owner.stopCalled = true ∨ owner.stopSelf = true
  result : ∀ result, owner.reported = some result → s.initResult = result
  error : s.runtimeError = owner.firstError

/-- What the controlling thread knows where it is. -/
def State.ControlOk (s : State) : Prop :=
  match s.control with
  | .idle last =>
    (∀ i, s.ownerThread = some i → (s.owners i).phase ≠ .created)
      ∧ match last with
        | some (.started i) => i + 1 = s.count ∧ (s.owners i).reported = some .ok
        | some (.startFailed i result) =>
          s.ownerThread = none ∧ i + 1 = s.count ∧ (s.owners i).phase = .exited
            ∧ (s.owners i).reported = some result
        | some (.stopped i result) =>
          s.ownerThread = none ∧ i + 1 = s.count ∧ (s.owners i).phase = .exited
            ∧ result = (s.owners i).firstError
        | _ => True
  | .startClear => s.ownerThread = none
  | .startReset => s.ownerThread = none ∧ s.ready = false ∧ s.stop = false ∧ s.exit = false
  | .startCreate =>
    s.ownerThread = none ∧ s.ready = false ∧ s.stop = false ∧ s.exit = false ∧ s.runtimeError = .ok
  | .startStartup i => s.ownerThread = some i ∧ (s.owners i).phase = .created
  | .startReady i | .startGiveUp i | .stopSend i | .stopExit i =>
    s.ownerThread = some i ∧ (s.owners i).phase ≠ .created
  | .startResult i =>
    s.ownerThread = some i ∧ (s.owners i).phase ≠ .created ∧ (s.owners i).reported ≠ none
  | .startExit i =>
    s.ownerThread = some i ∧ (s.owners i).phase ≠ .created ∧ (s.owners i).reported ≠ none
  | .freed => s.ownerThread = none

structure Inv (s : State) : Prop where
  owner : ∀ i, (s.owners i).Ok
  others : ∀ i, s.ownerThread ≠ some i → ¬s.Alive i ∧ (s.owners i).phase ≠ .created
  fits : ∀ i, s.ownerThread = some i → s.Fits (s.owners i)
  newest : ∀ i, s.ownerThread = some i → i + 1 = s.count
  control : s.ControlOk

theorem Inv.current {s : State} (h : Inv s) {i : Nat} (halive : s.Alive i) : s.ownerThread = some i :=
  Decidable.byContradiction fun hne => (h.others i hne).1 halive

theorem inv_start : Inv {} where
  owner i := by
    constructor <;> simp
  others := by simp [State.Alive, Phase.Alive]
  fits := by simp
  newest := by simp
  control := by simp [State.ControlOk]

/-- A step of the current owner. -/
theorem Inv.step_owner {s s' : State} {i : Nat} {owner : Owner} (h : Inv s)
    (hthread : s.ownerThread = some i) (hphase : (s.owners i).phase ≠ .created)
    (hcontrol : s'.control = s.control) (hthread' : s'.ownerThread = s.ownerThread)
    (hcount : s'.count = s.count) (howners : s'.owners = Function.update s.owners i owner) (hok : owner.Ok)
    (hphase' : owner.phase ≠ .created)
    (hreported : ∀ result, (s.owners i).reported = some result → owner.reported = some result)
    (hfits : s'.Fits owner) : Inv s' where
  owner j := by
    rw [howners]
    by_cases hj : j = i
    . subst hj
      simpa using hok
    . simpa [hj] using h.owner j
  others j hne := by
    have hj : j ≠ i := by
      intro heq
      rw [hthread', hthread, heq] at hne
      exact hne rfl
    have hother := h.others j (by rw [hthread] ; simpa using Ne.symm hj)
    simpa [State.Alive, howners, hj] using hother
  fits j hj := by
    rw [hthread', hthread, Option.some.injEq] at hj
    subst hj
    simpa [howners] using hfits
  newest j hj := by
    rw [hthread'] at hj
    rw [hcount]
    exact h.newest j hj
  control := by
    have hc := h.control
    have hsome {result : RtErr} {j : Nat} (hj : (s.owners j).reported = some result)
        : (Function.update s.owners i owner j).reported = some result := by
      by_cases heq : j = i
      . subst heq
        simpa using hreported result hj
      . simpa [heq] using hj
    have hreported' (hne : (s.owners i).reported ≠ none) : owner.reported ≠ none := by
      obtain ⟨result, hresult⟩ := Option.ne_none_iff_exists'.mp hne
      simp [hreported result hresult]
    cases hs : s.control with
    | idle last =>
      simp only [State.ControlOk, hcontrol, hs, hthread', hthread, hcount, howners] at hc ⊢
      refine ⟨by simpa using hphase', ?_⟩
      have hlast := hc.2
      split at hlast
      next => exact ⟨hlast.1, hsome hlast.2⟩
      next => exact absurd hlast.1 (by simp)
      next => exact absurd hlast.1 (by simp)
      next => trivial
    | startStartup j =>
      simp only [State.ControlOk, hs, hthread, Option.some.injEq] at hc
      obtain ⟨rfl, hcreated⟩ := hc
      exact absurd hcreated hphase
    | startResult j | startExit j =>
      simp only [State.ControlOk, hcontrol, hs, hthread', hthread, howners, Option.some.injEq] at hc ⊢
      obtain ⟨rfl, -, hne⟩ := hc
      simpa using ⟨hphase', hreported' hne⟩
    | startReady j | startGiveUp j | stopSend j | stopExit j =>
      simp only [State.ControlOk, hcontrol, hs, hthread', hthread, howners, Option.some.injEq] at hc ⊢
      obtain ⟨rfl, -⟩ := hc
      simpa using hphase'
    | _ => simp [State.ControlOk, hs, hthread] at hc

section

variable {s s' : State} {i : Nat}

theorem alive_phase (halive : s.Alive i) : (s.owners i).phase ≠ .created := by
  intro hcreated
  simp [State.Alive, hcreated, Phase.Alive] at halive

/-- Latching an error keeps the first one. -/
theorem Inv.latch_fits (h : Inv s) (halive : s.Alive i) (err : RtErr)
    : (if s.runtimeError = .ok then err else s.runtimeError)
      = ((s.owners i).latched ++ [err]).headD .ok := by
  have hfits := (h.fits i (h.current halive)).error
  have hlatched := (h.owner i).latched
  rw [hfits, Owner.firstError]
  cases hlist : (s.owners i).latched with
  | nil => simp
  | cons first rest =>
    have hfirst : first ≠ .ok := hlatched first (by simp [hlist])
    simp [hfirst]

theorem Owner.Ok.latch {owner : Owner} (h : owner.Ok) {err : RtErr} (herr : err ≠ .ok)
    : Owner.Ok { owner with latched := owner.latched ++ [err] } where
  latched := by
    intro err' hmem
    cases List.mem_append.mp hmem with
    | inl hmem => exact h.latched err' hmem
    | inr hmem =>
      rw [List.mem_singleton.mp hmem]
      exact herr
  stopSelf := by simp
  leaving := h.leaving
  reported := h.reported

theorem Inv.latch (h : Inv s) (halive : s.Alive i) {err : RtErr} (herr : err ≠ .ok)
    : Inv (s.latch i err) := by
  have hfits := h.fits i (h.current halive)
  exact h.step_owner (h.current halive) (alive_phase halive) rfl rfl rfl rfl ((h.owner i).latch herr)
    (alive_phase halive) (fun _ => id)
    ⟨hfits.ready, hfits.exit, hfits.stop, hfits.result, h.latch_fits halive err⟩

theorem alive_of_phase {phase : Phase} (h : (s.owners i).phase = phase) (halive : phase.Alive)
    : s.Alive i := by
  rw [State.Alive, h]
  exact halive

/-- The owner leaves its loop. -/
theorem Inv.leave (h : Inv s) (hphase : (s.owners i).phase = .loop) {why : Leave} {stop : Bool}
    (hwhy : why = .stop → s.stop = true) (hstop : stop = true → s.stop = true)
    : Inv { s.setPhase i (.leaving why) with stop := stop } := by
  have halive : s.Alive i := alive_of_phase hphase trivial
  have hfits := h.fits i (h.current halive)
  have hok := h.owner i
  have hreported := hok.reported
  rw [hphase] at hreported
  refine h.step_owner (h.current halive) (alive_phase halive) rfl rfl rfl rfl ?_ (by simp)
    (fun _ => id) ?_
  . refine ⟨hok.latched, hok.stopSelf, ?_, hreported⟩
    intro hleaving
    cases why with
    | stop => exact hfits.stop (hwhy rfl)
    | error => cases hleaving
  . refine ⟨hfits.ready, ?_, fun h => hfits.stop (hstop h), hfits.result, hfits.error⟩
    intro hexit
    have hexited := hfits.exit hexit
    rw [hphase] at hexited
    cases hexited

/-- The owner stores its `init_result`. -/
theorem Inv.report (h : Inv s) (hphase : (s.owners i).phase = .init) {phase : Phase} {result : RtErr}
    (hresult : phase = .opening ∧ result = .ok ∨ phase = .failing ∧ result ≠ .ok)
    : Inv
        {
          s.setOwner i { s.owners i with phase := phase, reported := some result } with
            initResult := result
        } := by
  have halive : s.Alive i := alive_of_phase hphase trivial
  have hfits := h.fits i (h.current halive)
  have hok := h.owner i
  have hnone := hok.reported
  rw [hphase] at hnone
  have hexit : s.exit ≠ true := by
    intro hexit
    have hexited := hfits.exit hexit
    rw [hphase] at hexited
    cases hexited
  refine h.step_owner (h.current halive) (alive_phase halive) rfl rfl rfl rfl ?_ ?_ ?_ ?_
  . refine ⟨hok.latched, hok.stopSelf, ?_, ?_⟩
    . obtain ⟨rfl, _⟩ | ⟨rfl, _⟩ := hresult <;> simp
    . obtain ⟨rfl, rfl⟩ | ⟨rfl, hne⟩ := hresult
      . simp
      . simpa using hne
  . obtain ⟨rfl, _⟩ | ⟨rfl, _⟩ := hresult <;> simp
  . intro old hold
    rw [hnone] at hold
    cases hold
  . refine ⟨by simp, fun h => absurd h hexit, hfits.stop, ?_, hfits.error⟩
    intro old hold
    simpa using hold

/-- The owner sends its last event. -/
theorem Inv.exits (h : Inv s) (halive : s.Alive i) (hreported : (s.owners i).reported ≠ none)
    {ready : Bool} : Inv { s.setPhase i .exited with ready := ready, exit := true } := by
  have hfits := h.fits i (h.current halive)
  have hok := h.owner i
  exact h.step_owner (h.current halive) (alive_phase halive) rfl rfl rfl rfl
    ⟨hok.latched, hok.stopSelf, by simp, hreported⟩ (by simp) (fun _ => id)
    ⟨fun _ => hreported, fun _ => rfl, hfits.stop, hfits.result, hfits.error⟩

theorem Inv.ownerStep (h : Inv s) (hstep : OwnerStep s i s') : Inv s' := by
  cases hstep with
  | latch err halive herr => exact h.latch halive herr
  | stopSelf halive herror =>
    have hfits := h.fits i (h.current halive)
    have hok := h.owner i
    have hne : (s.owners i).latched ≠ [] := by
      intro hnil
      rw [hfits.error, Owner.firstError, hnil] at herror
      exact herror rfl
    exact h.step_owner (h.current halive) (alive_phase halive) rfl rfl rfl rfl
      ⟨hok.latched, fun _ => hne, fun _ => .inr rfl, hok.reported⟩ (alive_phase halive) (fun _ => id)
      ⟨hfits.ready, hfits.exit, fun _ => .inr rfl, hfits.result, hfits.error⟩
  | initOk hphase => exact h.report hphase (.inl ⟨rfl, rfl⟩)
  | initFailed err hphase herr => exact h.report hphase (.inr ⟨rfl, herr⟩)
  | sendReadyExit hphase =>
    have hreported := (h.owner i).reported
    rw [hphase] at hreported
    obtain ⟨err, -, hsome⟩ := hreported
    exact h.exits (alive_of_phase hphase trivial) (by simp [hsome])
  | sendReady hphase =>
    have halive : s.Alive i := alive_of_phase hphase trivial
    have hfits := h.fits i (h.current halive)
    have hok := h.owner i
    have hreported := hok.reported
    rw [hphase] at hreported
    refine h.step_owner (h.current halive) (alive_phase halive) rfl rfl rfl rfl
      ⟨hok.latched, hok.stopSelf, by simp, hreported⟩ (by simp) (fun _ => id) ?_
    refine ⟨fun _ => by simp [hreported], ?_, hfits.stop, hfits.result, hfits.error⟩
    intro hexit
    have hexited := hfits.exit hexit
    rw [hphase] at hexited
    cases hexited
  | recvStop hphase hstop => exact h.leave hphase (fun _ => hstop) (by simp)
  | recvFailed err hphase herr =>
    have halive : s.Alive i := alive_of_phase hphase trivial
    have hphase' : ((s.latch i err).owners i).phase = .loop := by
      simpa [State.latch, State.setOwner] using hphase
    exact (h.latch halive herr).leave hphase' (by simp) id
  | errorFound hphase herror => exact h.leave hphase (by simp) id
  | sendExit why hphase =>
    have hreported := (h.owner i).reported
    rw [hphase] at hreported
    exact h.exits (alive_of_phase hphase trivial) (by simp [hreported])

/-- A step of the controlling thread that leaves the owners alone. -/
theorem Inv.keep (h : Inv s) (howners : s'.owners = s.owners) (hthread : s'.ownerThread = s.ownerThread)
    (hcount : s'.count = s.count)
    (hfits : ∀ i, s.ownerThread = some i → s.Fits (s.owners i) → s'.Fits (s.owners i))
    (hcontrol : s'.ControlOk) : Inv s' where
  owner i := by
    rw [howners]
    exact h.owner i
  others i hne := by
    rw [hthread] at hne
    simpa [State.Alive, howners] using h.others i hne
  fits i hi := by
    rw [hthread] at hi
    rw [howners]
    exact hfits i hi (h.fits i hi)
  newest i hi := by
    rw [hthread] at hi
    rw [hcount]
    exact h.newest i hi
  control := hcontrol

/-- The controlling thread takes note that the owner has exited. -/
theorem Inv.detach (h : Inv s) (hexit : s.exit = true)
    {control : Control} (hcontrol : State.ControlOk
      { s with control := control, ownerThread := none, exit := false })
    : Inv { s with control := control, ownerThread := none, exit := false } where
  owner := h.owner
  others j _ := by
    by_cases hj : s.ownerThread = some j
    . have hexited := (h.fits j hj).exit hexit
      simp [State.Alive, hexited, Phase.Alive]
    . exact h.others j hj
  fits := by simp
  newest := by simp
  control := hcontrol

/-- STOP is sent to the current owner. -/
theorem Inv.callStop (h : Inv s) (hthread : s.ownerThread = some i)
    (hphase : (s.owners i).phase ≠ .created) : Inv (s.callStop i) := by
  have hfits := h.fits i hthread
  have hok := h.owner i
  exact h.step_owner hthread hphase rfl rfl rfl rfl
    ⟨hok.latched, hok.stopSelf, fun _ => .inl rfl, hok.reported⟩ hphase (fun _ => id)
    ⟨hfits.ready, hfits.exit, fun _ => .inl rfl, hfits.result, hfits.error⟩

/-- Only the place of the controlling thread changes. -/
theorem Inv.goto (h : Inv s) {control : Control} (hcontrol : State.ControlOk { s with control := control })
    : Inv { s with control := control } :=
  h.keep rfl rfl rfl (fun _ _ hfits => ⟨hfits.ready, hfits.exit, hfits.stop, hfits.result, hfits.error⟩)
    hcontrol

/-- The controlling thread creates, starts or deletes the only thread that there is. -/
theorem Inv.replace {owner : Owner} (h : Inv s) (hthread : ∀ j, s.ownerThread = some j → j = i)
    (hthread' : ∀ j, s'.ownerThread = some j → j = i ∧ i + 1 = s'.count)
    (howners : s'.owners = Function.update s.owners i owner) (hok : owner.Ok)
    (hgone : s'.ownerThread ≠ some i → ¬owner.phase.Alive ∧ owner.phase ≠ .created)
    (hfits : s'.ownerThread = some i → s'.Fits owner) (hcontrol : s'.ControlOk) : Inv s' where
  owner j := by
    rw [howners]
    by_cases hj : j = i
    . subst hj
      simpa using hok
    . simpa [hj] using h.owner j
  others j hne := by
    by_cases hj : j = i
    . subst hj
      simpa [State.Alive, howners] using hgone hne
    . simpa [State.Alive, howners, hj] using h.others j fun heq => hj (hthread j heq)
  fits j hj := by
    obtain ⟨rfl, _⟩ := hthread' j hj
    simpa [howners] using hfits hj
  newest j hj := by
    obtain ⟨rfl, hcount⟩ := hthread' j hj
    exact hcount
  control := hcontrol

theorem Inv.controlStep (h : Inv s) (hstep : ControlStep s s') : Inv s' := by
  have hc := h.control
  cases hstep with
  | start hidle hnone => exact h.goto (by simpa [State.ControlOk] using hnone)
  | startRejected hidle _ | destroyIgnored hidle _ =>
    simp only [State.ControlOk, hidle] at hc
    exact h.goto (by simpa [State.ControlOk] using hc.1)
  | stopStopped hidle hnone => exact h.goto (by simp [State.ControlOk, hnone])
  | destroy hidle hnone => exact h.goto (by simpa [State.ControlOk] using hnone)
  | stop i hidle hthread =>
    simp only [State.ControlOk, hidle] at hc
    exact h.goto (by simpa [State.ControlOk] using ⟨hthread, hc.1 i hthread⟩)
  | clear hclear _ =>
    simp only [State.ControlOk, hclear] at hc
    exact h.keep rfl rfl rfl (by simp [hc]) (by simpa [State.ControlOk, hclear] using hc)
  | cleared hclear hbits =>
    simp only [State.ControlOk, hclear] at hc
    exact h.goto (by simpa [State.ControlOk, hc] using hbits)
  | reset hreset =>
    simp only [State.ControlOk, hreset] at hc
    exact h.keep rfl rfl rfl (by simp [hc.1]) (by simpa [State.ControlOk] using hc)
  | noThread hcreate =>
    simp only [State.ControlOk, hcreate] at hc
    exact h.goto (by simp [State.ControlOk, hc.1])
  | create hcreate =>
    simp only [State.ControlOk, hcreate] at hc
    obtain ⟨hnone, hready, hstop, hexit, herror⟩ := hc
    refine h.replace (by simp [hnone]) (by simp) rfl (by constructor <;> simp) (by simp) ?_ ?_
    . intro _
      constructor
        <;> simp [State.setOwner, hready, hstop, hexit, herror, Owner.firstError]
    . simp [State.ControlOk, State.setOwner]
  | startup i hstartup =>
    simp only [State.ControlOk, hstartup] at hc
    obtain ⟨hthread, hcreated⟩ := hc
    have hfits := h.fits i hthread
    have hnewest := h.newest i hthread
    have hok := h.owner i
    have hnone := hok.reported
    rw [hcreated] at hnone
    refine h.replace (by simp [hthread])
      (by simpa [State.setPhase, State.setOwner, hthread] using hnewest) rfl
      ⟨hok.latched, hok.stopSelf, by simp, hnone⟩
      (by simp [State.setPhase, State.setOwner, hthread]) ?_ ?_
    . intro _
      refine ⟨hfits.ready, ?_, hfits.stop, hfits.result, hfits.error⟩
      intro hexit
      have hexited := hfits.exit hexit
      rw [hcreated] at hexited
      cases hexited
    . simp [State.ControlOk, State.setPhase, State.setOwner, hthread]
  | startupFailed i hstartup =>
    simp only [State.ControlOk, hstartup] at hc
    obtain ⟨hthread, hcreated⟩ := hc
    have hok := h.owner i
    have hnone := hok.reported
    rw [hcreated] at hnone
    exact h.replace (by simp [hthread]) (by simp) rfl
      ⟨hok.latched, hok.stopSelf, by simp, hnone⟩ (by simp [Phase.Alive]) (by simp)
      (by simp [State.ControlOk])
  | recvReady i hready hset =>
    simp only [State.ControlOk, hready] at hc
    have hfits := h.fits i hc.1
    refine h.keep rfl rfl rfl (fun _ _ hfits => ⟨by simp, hfits.exit, hfits.stop, hfits.result, hfits.error⟩) ?_
    simpa [State.ControlOk] using ⟨hc.1, hc.2, hfits.ready hset⟩
  | readyTimeout i hready =>
    simp only [State.ControlOk, hready] at hc
    exact h.goto (by simpa [State.ControlOk] using hc)
  | giveUp i hgiveUp =>
    simp only [State.ControlOk, hgiveUp] at hc
    refine (h.callStop hc.1 hc.2).goto ?_
    simp [State.ControlOk, State.callStop, State.setOwner, hc]
  | started i hresult hok =>
    simp only [State.ControlOk, hresult] at hc
    obtain ⟨result, hsome⟩ := Option.ne_none_iff_exists'.mp hc.2.2
    have hinit := (h.fits i hc.1).result result hsome
    refine h.goto ?_
    simp only [State.ControlOk, hc.1, Option.some.injEq, forall_eq', hsome]
    exact ⟨hc.2.1, h.newest i hc.1, hinit.symm.trans hok⟩
  | initError i hresult hne =>
    simp only [State.ControlOk, hresult] at hc
    exact h.goto (by simpa [State.ControlOk] using hc)
  | recvStartExit i hexit hset =>
    simp only [State.ControlOk, hexit] at hc
    obtain ⟨result, hsome⟩ := Option.ne_none_iff_exists'.mp hc.2.2
    have hfits := h.fits i hc.1
    refine h.detach hset ?_
    simp [State.ControlOk, h.newest i hc.1, hfits.exit hset, hsome, hfits.result result hsome]
  | startExitTimeout i hexit =>
    simp only [State.ControlOk, hexit] at hc
    refine h.goto ?_
    simpa [State.ControlOk, hc.1] using hc.2.1
  | stopSent i hsend =>
    simp only [State.ControlOk, hsend] at hc
    refine (h.callStop hc.1 hc.2).goto ?_
    simpa [State.ControlOk, State.callStop, State.setOwner] using hc
  | stopNotSent i hsend =>
    simp only [State.ControlOk, hsend] at hc
    refine h.goto ?_
    simpa [State.ControlOk, hc.1] using hc.2
  | recvExit i hexit hset =>
    simp only [State.ControlOk, hexit] at hc
    have hfits := h.fits i hc.1
    refine h.detach hset ?_
    simp [State.ControlOk, h.newest i hc.1, hfits.exit hset, hfits.error]
  | exitTimeout i hexit =>
    simp only [State.ControlOk, hexit] at hc
    refine h.goto ?_
    simpa [State.ControlOk, hc.1] using hc.2

theorem Reachable.inv (h : Reachable s) : Inv s := by
  have hsteps : Relation.ReflTransGen Step {} s := h
  induction hsteps with
  | refl => exact inv_start
  | tail hsteps hstep ih =>
    cases hstep with
    | owner i hstep => exact (ih hsteps).ownerStep hstep
    | control hstep => exact (ih hsteps).controlStep hstep

/--
At most one owner may access the runtime, and none without an `owner_thread`. The calls return what
the newest thread has done: a start succeeds with the report of the thread it created, and a stop ends
behind the cleanup of the current one with the first error of its run. An owner stops for a call that
addressed it, or for an error of its own.
-/
theorem lifecycle_handshake (h : Reachable s)
    : (∀ i j, s.Alive i → s.Alive j → i = j)
      ∧ (s.ownerThread = none → ∀ i, ¬s.Alive i)
      ∧ (s.control = .freed → ∀ i, ¬s.Alive i)
      ∧ (∀ i, s.control = .idle (some (.started i)) →
        i + 1 = s.count ∧ (s.owners i).reported = some .ok)
      ∧ (∀ i result, s.control = .idle (some (.startFailed i result)) →
        i + 1 = s.count ∧ (s.owners i).phase = .exited ∧ (s.owners i).reported = some result)
      ∧ (∀ i result, s.control = .idle (some (.stopped i result)) →
        i + 1 = s.count ∧ (s.owners i).phase = .exited ∧ result = (s.owners i).firstError)
      ∧ (∀ i, (s.owners i).phase = .leaving .stop →
        (s.owners i).stopCalled = true
          ∨ (s.owners i).stopSelf = true ∧ (s.owners i).latched ≠ []) := by
  have hinv := h.inv
  have hnone (hthread : s.ownerThread = none) (i : Nat) : ¬s.Alive i :=
    (hinv.others i (by simp [hthread])).1
  have hcontrol := hinv.control
  refine ⟨?_, hnone, ?_, ?_, ?_, ?_, ?_⟩
  . intro i j hi hj
    have hthread := hinv.current hi
    rw [hinv.current hj, Option.some.injEq] at hthread
    exact hthread.symm
  . intro hfreed
    simp only [State.ControlOk, hfreed] at hcontrol
    exact hnone hcontrol
  . intro i hidle
    simp only [State.ControlOk, hidle] at hcontrol
    exact hcontrol.2
  . intro i result hidle
    simp only [State.ControlOk, hidle] at hcontrol
    exact hcontrol.2.2
  . intro i result hidle
    simp only [State.ControlOk, hidle] at hcontrol
    exact hcontrol.2.2
  . intro i hleaving
    exact ((hinv.owner i).leaving hleaving).imp id fun hself => ⟨hself, (hinv.owner i).stopSelf hself⟩

end

/--
The first start gives up, its thread leaves READY behind and the stop leaves STOP behind; the second
start waits for the report of its own thread.
-/
theorem lifecycle_handshake_restart
    : ∃ s, Reachable s ∧ s.control = .idle (some (.started 1))
      ∧ 1 + 1 = s.count ∧ (s.owners 1).reported = some .ok := by
  have hstart : Reachable {} := .refl
  have hcreated := (((hstart.tail (.control (.start rfl rfl))).tail
    (.control (.cleared rfl (by decide)))).tail (.control (.reset rfl))).tail (.control (.create rfl))
  have hgivenUp := ((hcreated.tail (.control (.startup 0 rfl))).tail
    (.control (.readyTimeout 0 rfl))).tail (.control (.giveUp 0 rfl))
  have hexited := (((hgivenUp.tail (.owner 0 (.initOk rfl))).tail (.owner 0 (.sendReady rfl))).tail
    (.owner 0 (.recvStop rfl rfl))).tail (.owner 0 (.sendExit .stop rfl))
  have hstopped := ((hexited.tail (.control (.stop 0 rfl rfl))).tail (.control (.stopSent 0 rfl))).tail
    (.control (.recvExit 0 rfl rfl))
  have hcreated' := ((((hstopped.tail (.control (.start rfl rfl))).tail
    (.control (.clear rfl (by decide)))).tail (.control (.cleared rfl (by decide)))).tail
    (.control (.reset rfl))).tail (.control (.create rfl))
  have hready := ((hcreated'.tail (.control (.startup 1 rfl))).tail (.owner 1 (.initOk rfl))).tail
    (.owner 1 (.sendReady rfl))
  have hstarted := (hready.tail (.control (.recvReady 1 rfl rfl))).tail (.control (.started 1 rfl rfl))
  exact ⟨_, hstarted, rfl, (lifecycle_handshake hstarted).2.2.2.1 1 rfl⟩

end LelyRtt.Lifecycle
