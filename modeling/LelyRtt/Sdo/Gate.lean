import LelyRtt.Basic

/-!
This module contains the two per-node flags that gate application SDO requests around NMT
transitions, and the owner functions that write them.
-/

namespace LelyRtt

structure Gate where
  suspended : Nat → Bool
  resetPending : Nat → Bool

namespace Gate

/-- All nodes open, as `lely_rtt_runtime_create` and `lely_rtt_master_sdo_fini` leave them. -/
def opened : Gate where
  suspended := fun _ => false
  resetPending := fun _ => false

/-- `lely_rtt_master_sdo_set_suspended` -/
def setSuspended (gate : Gate) (node : Nat) (suspended resetPending : Bool) : Gate :=
  if node > numNodes then
    gate
  else
    {
      suspended := fun id => if id ∈ targets node then suspended else gate.suspended id
      resetPending := fun id => if id ∈ targets node then resetPending else gate.resetPending id
    }

/-- `runtime->sdo_suspended[node] = RT_TRUE` -/
def suspend (gate : Gate) (node : Nat) : Gate :=
  { gate with suspended := fun id => if id ∈ targets node then true else gate.suspended id }

/--
The flag updates of `lely_rtt_master_sdo_on_nmt_state`, where `booting` is what `co_nmt_is_booting`
answers for the node. The node's requests are canceled by the caller.
-/
def onNmtState (gate : Gate) (node : Nat) (state : Nat) (booting : Bool) : Gate :=
  if node = 0 ∨ node > numNodes then
    gate
  else if state = stBootup then
    if booting then
      gate.setSuspended node true true
    else
      gate.setSuspended node false false
  else if state = stStop then
    gate.suspend node
  else if state = stPreop ∨ state = stStart then
    if gate.resetPending node then
      gate
    else
      gate.setSuspended node false false
  else
    gate

/-- `lely_rtt_master_sdo_on_nmt_command` -/
def onNmtCommand (gate : Gate) (node : Nat) (command : NmtCommand) : Gate :=
  if node > numNodes then
    gate
  else
    match command with
    | .stop => gate.suspend node
    | .resetNode | .resetComm => gate.setSuspended node true true
    | .start | .preop =>
      {
        gate with
          suspended := fun id =>
            if id ∈ targets node ∧ gate.resetPending id = false then false else gate.suspended id
      }

/-- `lely_rtt_master_sdo_on_boot_complete` -/
def onBootComplete (gate : Gate) (node : Nat) (state : Nat) : Gate :=
  if node = 0 ∨ node > numNodes then
    gate
  else
    gate.setSuspended node (state ≠ stPreop ∧ state ≠ stStart) false

end Gate

/-- What may write the flags. -/
inductive GateEvent where
  -- a remote state is indicated, and whether the node is booting then
  | state (node : Nat) (state : Nat) (booting : Bool)
  -- an NMT command to one node, or to all for node 0, is accepted
  | command (node : Nat) (command : NmtCommand)
  | beforeBoot (node : Nat)
  | bootComplete (node : Nat) (state : Nat)
  | fini (node : Nat)
  deriving DecidableEq, Repr

/-- The event may clear a reset hold of the node. -/
def GateEvent.clears (node : Nat) : GateEvent → Bool
  | .state id st booting => id = node ∧ st = stBootup ∧ !booting
  | .bootComplete id _ => id = node
  | .fini id => node ∈ targets id
  | .command _ _ | .beforeBoot _ => false

namespace Gate

def apply (gate : Gate) : GateEvent → Gate
  | .state node state booting => gate.onNmtState node state booting
  | .command node command => gate.onNmtCommand node command
  | .beforeBoot node => gate.setSuspended node true true
  | .bootComplete node state => gate.onBootComplete node state
  | .fini node => gate.setSuspended node false false

def run (gate : Gate) (events : List GateEvent) : Gate := events.foldl apply gate

theorem run_append (gate : Gate) (events later : List GateEvent)
    : gate.run (events ++ later) = (gate.run events).run later :=
  List.foldl_append

/-- A reset hold comes with a suspension. -/
def Held (gate : Gate) : Prop := ∀ node, gate.resetPending node = true → gate.suspended node = true

theorem held_opened : opened.Held := by
  intro node h
  cases h

section

variable {gate : Gate} {node : Nat}

theorem held_setSuspended (h : gate.Held) {suspended resetPending : Bool}
    (himp : resetPending = true → suspended = true)
    : (gate.setSuspended node suspended resetPending).Held := by
  unfold setSuspended
  split
  next => exact h
  next =>
    intro id hid
    simp only at hid ⊢
    split
    next hmem => exact himp (by simpa [hmem] using hid)
    next hmem => exact h id (by simpa [hmem] using hid)

theorem held_suspend (h : gate.Held) : (gate.suspend node).Held := by
  intro id hid
  simp only [suspend]
  split
  next => rfl
  next => exact h id hid

theorem held_onNmtState (h : gate.Held) (state : Nat) (booting : Bool)
    : (gate.onNmtState node state booting).Held := by
  fun_cases onNmtState gate node state booting with
  | case1 => exact h
  | case2 => exact held_setSuspended h id
  | case3 => exact held_setSuspended h id
  | case4 => exact held_suspend h
  | case5 => exact h
  | case6 => exact held_setSuspended h id
  | case7 => exact h

theorem held_onNmtCommand (h : gate.Held) (command : NmtCommand)
    : (gate.onNmtCommand node command).Held := by
  unfold onNmtCommand
  split
  next => exact h
  next =>
    cases command with
    | stop => exact held_suspend h
    | resetNode | resetComm => exact held_setSuspended h id
    | start | preop =>
      intro id hid
      simp only at hid ⊢
      simp [hid, h id hid]

theorem held_onBootComplete (h : gate.Held) (state : Nat)
    : (gate.onBootComplete node state).Held := by
  unfold onBootComplete
  split
  next => exact h
  next => exact held_setSuspended h (fun hfalse => by cases hfalse)

theorem held_apply (h : gate.Held) (e : GateEvent) : (gate.apply e).Held := by
  cases e with
  | state _ state booting => exact held_onNmtState h state booting
  | command _ command => exact held_onNmtCommand h command
  | beforeBoot => exact held_setSuspended h id
  | bootComplete _ state => exact held_onBootComplete h state
  | fini => exact held_setSuspended h id

theorem held_run (h : gate.Held) (events : List GateEvent) : (gate.run events).Held := by
  induction events generalizing gate with
  | nil => exact h
  | cons e rest ih => exact ih (held_apply h e)

end

section

variable {gate : Gate} {node : Nat}

theorem mem_targets {node id : Nat} (hnode : node ≠ 0) : id ∈ targets node ↔ id = node := by
  simp [targets, hnode]

theorem resetPending_setSuspended {other : Nat} {suspended resetPending : Bool}
    (h : gate.resetPending node = true) (hkeep : node ∈ targets other → resetPending = true)
    : (gate.setSuspended other suspended resetPending).resetPending node = true := by
  unfold setSuspended
  split
  next => exact h
  next =>
    simp only
    split
    next hmem => exact hkeep hmem
    next => exact h

theorem resetPending_onNmtState {other state : Nat} {booting : Bool}
    (h : gate.resetPending node = true)
    (hclears : ¬(other = node ∧ state = stBootup ∧ booting = false))
    : (gate.onNmtState other state booting).resetPending node = true := by
  fun_cases onNmtState gate other state booting with
  | case1 => exact h
  | case2 => exact resetPending_setSuspended h fun _ => rfl
  | case3 hother hst hbooting =>
    refine resetPending_setSuspended h fun hmem => ?_
    rw [mem_targets (by omega)] at hmem
    exact absurd ⟨hmem.symm, hst, by simpa using hbooting⟩ hclears
  | case4 => exact h
  | case5 => exact h
  | case6 hother _ _ _ hreset =>
    refine resetPending_setSuspended h fun hmem => ?_
    rw [mem_targets (by omega)] at hmem
    exact absurd (hmem ▸ h) hreset
  | case7 => exact h

theorem resetPending_onNmtCommand {other : Nat} {command : NmtCommand}
    (h : gate.resetPending node = true)
    : (gate.onNmtCommand other command).resetPending node = true := by
  unfold onNmtCommand
  split
  next => exact h
  next =>
    cases command with
    | resetNode | resetComm => exact resetPending_setSuspended h fun _ => rfl
    | _ => exact h

/-- An event that is not one of those that may clear a reset hold keeps it. -/
theorem resetPending_apply {e : GateEvent} (h : gate.resetPending node = true)
    (hclears : e.clears node = false) : (gate.apply e).resetPending node = true := by
  cases e with
  | state other state booting =>
    exact resetPending_onNmtState h (by simpa [GateEvent.clears] using hclears)
  | command => exact resetPending_onNmtCommand h
  | beforeBoot => exact resetPending_setSuspended h fun _ => rfl
  | bootComplete other state =>
    simp only [apply, onBootComplete]
    split
    next => exact h
    next hother =>
      refine resetPending_setSuspended h fun hmem => ?_
      rw [mem_targets (by omega)] at hmem
      simp [GateEvent.clears, hmem] at hclears
  | fini other =>
    refine resetPending_setSuspended h fun hmem => ?_
    simp [GateEvent.clears, hmem] at hclears

theorem resetPending_run {events : List GateEvent} (h : gate.resetPending node = true)
    (hclears : ∀ e ∈ events, e.clears node = false) : (gate.run events).resetPending node = true := by
  induction events generalizing gate with
  | nil => exact h
  | cons e rest ih =>
    exact ih (resetPending_apply h (hclears e List.mem_cons_self))
      fun e he => hclears e (List.mem_cons_of_mem _ he)

end

/-- What a command to a node does to the flags of that node. -/
def commanded (gate : Gate) (command : NmtCommand) (id : Nat) : Bool × Bool :=
  match command with
  | .stop => (true, gate.resetPending id)
  | .resetNode | .resetComm => (true, true)
  | .start | .preop =>
    (if gate.resetPending id = false then false else gate.suspended id, gate.resetPending id)

theorem onNmtCommand_flags (gate : Gate) (command : NmtCommand) {node : Nat}
    (hnode : node ≤ numNodes) (id : Nat)
    : ((gate.onNmtCommand node command).suspended id, (gate.onNmtCommand node command).resetPending id)
      = if id ∈ targets node then gate.commanded command id
        else (gate.suspended id, gate.resetPending id) := by
  have hle : ¬node > numNodes := by omega
  cases command <;> by_cases hmem : id ∈ targets node
    <;> simp [onNmtCommand, commanded, suspend, setSuspended, hle, hmem]

theorem commanded_congr {gate gate' : Gate} (command : NmtCommand) {id : Nat}
    (h : (gate'.suspended id, gate'.resetPending id) = (gate.suspended id, gate.resetPending id))
    : gate'.commanded command id = gate.commanded command id := by
  simp only [Prod.mk.injEq] at h
  cases command <;> simp [commanded, h]

theorem run_commands_flags (gate : Gate) (command : NmtCommand) {nodes : List Nat}
    (hnodup : nodes.Nodup) (hnodes : ∀ node ∈ nodes, node ≠ 0 ∧ node ≤ numNodes) (id : Nat)
    : ((gate.run (nodes.map (.command · command))).suspended id,
        (gate.run (nodes.map (.command · command))).resetPending id)
      = if id ∈ nodes then gate.commanded command id
        else (gate.suspended id, gate.resetPending id) := by
  induction nodes generalizing gate with
  | nil => simp [run]
  | cons node rest ih =>
    obtain ⟨hfresh, hnodup⟩ := List.nodup_cons.mp hnodup
    obtain ⟨hnode, hle⟩ := hnodes node List.mem_cons_self
    have hstep := onNmtCommand_flags gate command hle id
    simp only [mem_targets hnode] at hstep
    have hrest := ih (gate.onNmtCommand node command) hnodup
      fun node hmem => hnodes node (List.mem_cons_of_mem _ hmem)
    simp only [List.map_cons, run, List.foldl_cons, List.mem_cons] at hrest ⊢
    by_cases heq : id = node
    . subst heq
      rw [if_neg hfresh] at hrest
      rw [if_pos rfl] at hstep
      rw [if_pos (.inl rfl)]
      exact hrest.trans hstep
    . rw [if_neg heq] at hstep
      rw [commanded_congr command hstep, hstep] at hrest
      simpa [heq, apply] using hrest

theorem ext_flags {gate gate' : Gate}
    (h : ∀ id, (gate.suspended id, gate.resetPending id)
      = (gate'.suspended id, gate'.resetPending id)) : gate = gate' := by
  obtain ⟨suspended, resetPending⟩ := gate
  obtain ⟨suspended', resetPending'⟩ := gate'
  have hboth (id : Nat) : suspended id = suspended' id ∧ resetPending id = resetPending' id := by
    simpa using h id
  congr
  . exact funext fun id => (hboth id).1
  . exact funext fun id => (hboth id).2

/-- A command to node 0 is the command to each node in turn. -/
theorem apply_broadcast (gate : Gate) (command : NmtCommand)
    : gate.apply (.command 0 command)
      = gate.run ((List.range' 1 numNodes).map (.command · command)) := by
  apply ext_flags
  intro id
  rw [run_commands_flags gate command List.nodup_range' fun node hmem => by
    simp only [List.mem_range'_1] at hmem; omega]
  exact onNmtCommand_flags gate command (Nat.zero_le _) id

end Gate

end LelyRtt
