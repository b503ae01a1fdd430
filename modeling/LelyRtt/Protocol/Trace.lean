import LelyRtt.Protocol.Start

/-!
This module contains runs along a given schedule, for concrete runs of the owner.
-/

namespace LelyRtt

open Conc

variable {ι κ : Type} [DecidableEq ι] [DecidableEq κ]

/-- Who takes the next step of a run, and what the outside world answers. -/
inductive Choice (ι κ : Type) where
  | owner (input : Input)
  | app (r : ι) (call : AppCall)
  | waiter (r : ι) (timeout : Bool)
  | poster (i : κ) (command : Command ι κ)
  | control

/-- The next step of the owner: an operation, or a turn of a loop. -/
def ownerStep (input : Input) (c : Cfg ι κ) : Option (Cfg ι κ) :=
  match c.prog with
  | .ret _ => none
  | .op o k =>
    match o.run input c.own c.sh with
    | (b, own, sh) => some ⟨k b, own, sh⟩
  | .iter body s k => some ⟨.turn body s k, c.own, c.sh⟩

def Choice.step (cfg : BuildConfig) (choice : Choice ι κ) (c : Cfg ι κ) : Option (Cfg ι κ) :=
  match choice with
  | .owner input => ownerStep input c
  | .app r call => (appStep cfg r call c.sh).map fun sh => { c with sh := sh }
  | .waiter r timeout => (waiterStep r timeout c.sh).map fun sh => { c with sh := sh }
  | .poster i command => (posterStep cfg i command c.sh).map fun sh => { c with sh := sh }
  | .control => some { c with sh := controlStep c.sh }

/-- The run along a schedule. -/
def runAlong (cfg : BuildConfig) : List (Choice ι κ) → Cfg ι κ → Option (Cfg ι κ)
  | [], c => some c
  | choice :: rest, c =>
    match choice.step cfg c with
    | none => none
    | some c => runAlong cfg rest c

variable {cfg : BuildConfig} {c c' : Cfg ι κ}

/-- The steps of the other threads. -/
theorem Choice.step_env {choice : Choice ι κ} (hchoice : ∀ input, choice ≠ .owner input)
    (h : choice.step cfg c = some c') : ∃ sh', EnvStep cfg c.sh sh' ∧ c' = { c with sh := sh' } := by
  cases choice with
  | owner input => exact absurd rfl (hchoice input)
  | app r call =>
    obtain ⟨sh', hstep, rfl⟩ := Option.map_eq_some_iff.mp h
    exact ⟨sh', .app r call hstep, rfl⟩
  | waiter r timeout =>
    obtain ⟨sh', hstep, rfl⟩ := Option.map_eq_some_iff.mp h
    exact ⟨sh', .waiter r timeout hstep, rfl⟩
  | poster i command =>
    obtain ⟨sh', hstep, rfl⟩ := Option.map_eq_some_iff.mp h
    exact ⟨sh', .poster i command hstep, rfl⟩
  | control =>
    cases h
    exact ⟨_, .control, rfl⟩

theorem Choice.step_sound {choice : Choice ι κ} (h : choice.step cfg c = some c')
    : (machine ι κ cfg).Step c c' := by
  cases choice with
  | owner input =>
    obtain ⟨prog, own, sh⟩ := c
    simp only [step, ownerStep] at h
    cases prog with
    | ret _ => cases h
    | op o k =>
      cases h
      exact .op ⟨input, rfl⟩
    | iter body s k =>
      cases h
      exact .turn
  | _ =>
    obtain ⟨sh', henv, rfl⟩ := Choice.step_env (by simp) h
    exact .env henv

theorem runAlong_sound {choices : List (Choice ι κ)} (h : runAlong cfg choices c = some c')
    : (machine ι κ cfg).Steps c c' := by
  induction choices generalizing c with
  | nil =>
    cases h
    exact .refl
  | cons choice rest ih =>
    unfold runAlong at h
    split at h
    . cases h
    next c₁ hstep => exact .head (Choice.step_sound hstep) (ih h)

/-- A schedule that ends in a configuration with the property. -/
theorem reach_of_runAlong (hstart : Starts cfg c) (choices : List (Choice ι κ)) (p : Cfg ι κ → Bool)
    (h : (runAlong cfg choices c).any p)
    : ∃ c', (machine ι κ cfg).Reach (Starts cfg) c' ∧ p c' := by
  cases hrun : runAlong cfg choices c with
  | none => simp [hrun] at h
  | some c' =>
    rw [hrun] at h
    exact ⟨c', (Machine.Reach.init hstart).steps (runAlong_sound hrun), by simpa using h⟩

/-- The run along a schedule in which Lely runs only what is allowed. -/
def runWithin (cfg : BuildConfig) (allowed : Own ι κ → LelyWork → Bool)
    : List (Choice ι κ) → Cfg ι κ → Option (Cfg ι κ)
  | [], c => some c
  | choice :: rest, c =>
    match choice with
    | .owner input =>
      if allowed c.own input.work then
        match ownerStep input c with
        | none => none
        | some c => runWithin cfg allowed rest c
      else
        none
    | _ =>
      match choice.step cfg c with
      | none => none
      | some c => runWithin cfg allowed rest c

section

variable {lim : Limits} {allowed : Own ι κ → LelyWork → Bool}

theorem ownerStep_restricted {input : Input} (h : ownerStep input c = some c')
    (hpermits : Op.permits lim c.own (.work : Op ι κ) input.work)
    : (restricted ι κ cfg lim).Step c c' := by
  obtain ⟨prog, own, sh⟩ := c
  simp only [ownerStep] at h
  cases prog with
  | ret _ => cases h
  | op o k =>
    cases h
    refine .op ⟨⟨input, rfl⟩, ?_⟩
    cases o with
    | work => exact hpermits
    | _ => trivial
  | iter body s k =>
    cases h
    exact .turn

theorem runWithin_sound (hlim : ¬lim.uniqueIds)
    (hallowed : ∀ own work, allowed own work → Op.permits lim own (.work : Op ι κ) work)
    {choices : List (Choice ι κ)} (h : runWithin cfg allowed choices c = some c')
    : (restricted ι κ cfg lim).Steps c c' := by
  induction choices generalizing c with
  | nil =>
    cases h
    exact .refl
  | cons choice rest ih =>
    unfold runWithin at h
    split at h
    next input =>
      split at h
      next hwork =>
        split at h
        . cases h
        next c₁ hstep =>
          exact .head (ownerStep_restricted hstep (hallowed _ _ hwork)) (ih h)
      next => cases h
    next hchoice =>
      split at h
      . cases h
      next c₁ hstep =>
        obtain ⟨sh', henv, rfl⟩ := Choice.step_env hchoice hstep
        exact .head (.env ⟨henv, fun hunique => absurd hunique hlim⟩) (ih h)

theorem reach_of_runWithin (lim : Limits) (allowed : Own ι κ → LelyWork → Bool)
    (hstart : Starts cfg c) (hlim : ¬lim.uniqueIds)
    (hallowed : ∀ own work, allowed own work → Op.permits lim own (.work : Op ι κ) work)
    (choices : List (Choice ι κ)) (p : Cfg ι κ → Bool)
    (h : (runWithin cfg allowed choices c).any p)
    : ∃ c', (restricted ι κ cfg lim).Reach (Starts cfg) c' ∧ p c' := by
  cases hrun : runWithin cfg allowed choices c with
  | none => simp [hrun] at h
  | some c' =>
    rw [hrun] at h
    exact ⟨c', (Machine.Reach.init hstart).steps (runWithin_sound hlim hallowed hrun),
      by simpa using h⟩

end

/-- The owner is between two of its operations. -/
def Cfg.atBetween (c : Cfg ι κ) : Bool :=
  match c.prog with
  | .op .between _ => true
  | _ => false

/-- The owner is about to wait for an event. -/
def Cfg.atReceive (c : Cfg ι κ) : Bool :=
  match c.prog with
  | .op .receive _ => true
  | _ => false

omit [DecidableEq ι] [DecidableEq κ] in
theorem Cfg.next_of_atBetween (h : c.atBetween) : c.next? = some .between := by
  unfold atBetween at h
  split at h
  next heq => simp [next?, heq]
  next => cases h

omit [DecidableEq ι] [DecidableEq κ] in
theorem Cfg.next_of_atReceive (h : c.atReceive) : c.next? = some .receive := by
  unfold atReceive at h
  split at h
  next heq => simp [next?, heq]
  next => cases h

section

variable (ι κ)

/-- The owner of the node `localId` before its run, with the predefined channel for every node. -/
def Own.blank (localId : Nat) : Own ι κ where
  sdoActive _ := none
  sdoPending _ := none
  csdo _ := none
  misc :=
    {
      sdoChannel := fun _ => channelPredefined
      sdoStopPending := fun _ => false
      gate := .opened
      gateLog := []
      canNet := false
      masterNmt := false
      localId := localId
      booting := fun _ => false
      cfgActive := fun _ => none
      bootResultValid := fun _ => false
    }
  point := .init
  pinStage := .none
  taken := []
  activated := []
  started := []

/-- The shared state after `lely_rtt_master_command_prepare`, with new requests only. -/
def Shared.blank : Shared ι κ where
  heap _ := {}
  hist _ := []
  app _ := .idle
  waiter _ := .idle
  poster _ := .idle
  control := .idle
  commandRefs := 0
  commandQuiescing := true
  commandStopLatched := false
  callbackRefs := 0
  callbackQuiescing := true
  commandMq := none
  sent := []
  returned _ := []
  eventCommand := false
  eventStop := false
  sdoNextRequestId := 0
  sdoCancelRefs := 0
  localNodeId := 0

def Cfg.blank (cfg : BuildConfig) : Cfg ι κ := ⟨ownerEntry cfg, .blank ι κ 1, .blank ι κ⟩

theorem starts_blank (cfg : BuildConfig) : Starts cfg (.blank ι κ cfg) where
  prog := rfl
  active _ := rfl
  pending _ := rfl
  csdo _ _ := by simp [Cfg.blank, Own.blank]
  point := rfl
  pinStage := rfl
  nmt _ := ⟨rfl, rfl⟩
  gate := ⟨rfl, rfl⟩
  history := ⟨rfl, rfl, rfl⟩
  requests _ := by
    left
    simp [Cfg.blank, Shared.blank, completion, canceledEarly]
  app _ := rfl
  poster _ := rfl
  commandRefs := rfl
  cancelRefs := rfl
  commandMq := rfl
  sent := rfl
  returned _ := rfl

end

/-- Steps of the owner with the same answers of the outside world. -/
def Choice.owners (n : Nat) (input : Input) : List (Choice ι κ) := List.replicate n (.owner input)

/-- Steps of the application thread of a request, which posts an upload from the node if it is idle. -/
def Choice.uploads (n : Nat) (r : ι) (node : Nat) : List (Choice ι κ) :=
  List.replicate n (.app r (.post
    {
      operation := .upload
      nodeId := node
      index := 0x1018
      subindex := 0
      data := none
      timeoutMs := 1000
      blockTransfer := false
      blockPst := 0
      alloc := true
    }))

/-- The owner initializes the runtime with a Master and comes to its first wait for an event. -/
def Choice.starts : List (Choice ι κ) := Choice.owners 27 { pick := true }

/-- The owner receives an event and comes to the dispatch of commands. -/
def Choice.dispatches : List (Choice ι κ) := Choice.owners 6 {}

/-- A configuration of the package with small queues. -/
def BuildConfig.small : BuildConfig := ⟨4, 2, by decide, by decide⟩

/--
A request that is posted while the owner waits, is completed by the end of the run, and is destroyed
then.
-/
theorem reach_destroyed
    : ∃ c : Cfg Unit Unit, (machine Unit Unit .small).Reach (Starts .small) c
      ∧ .postRet .ok ∈ c.sh.hist () ∧ .destroyRet .ok ∈ c.sh.hist () ∧ c.sh.app () = .destroyed
      ∧ accepted (c.sh.returned (.app ())) = [.sdo ()] ∧ c.own.point = .finished
      ∧ c.own.pinStage = .none := by
  obtain ⟨c, hreach, hc⟩ := reach_of_runAlong (starts_blank Unit Unit .small)
    (Choice.starts ++ Choice.uploads 15 () 5 ++ Choice.owners 1 {}
      ++ Choice.owners 1 { pick := true } ++ Choice.owners 1433 {}
      ++ List.replicate 4 (.app () .destroy))
    (fun c => .postRet .ok ∈ c.sh.hist () ∧ .destroyRet .ok ∈ c.sh.hist () ∧ c.sh.app () = .destroyed
      ∧ accepted (c.sh.returned (.app ())) = [.sdo ()] ∧ c.own.point = .finished
      ∧ c.own.pinStage = .none) (by decide +kernel)
  exact ⟨c, hreach, by simpa using hc⟩

end LelyRtt
