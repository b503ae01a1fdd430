import LelyRtt.Run.Exclusive

/-!
This module contains the results about the gate that keeps application transfers away from a node
that was reset or stopped.
-/

namespace LelyRtt

open Conc

variable {ι κ : Type} [DecidableEq ι] [DecidableEq κ] [Fintype ι] [Fintype κ]
  {cfg : BuildConfig} {lim : Limits} {own own' : Own ι κ} {sh sh' : Shared ι κ} {v v' : View ι}
  {c c' : Cfg ι κ} {node : Nat}

/-- The pending FIFO of a node holds these requests. -/
def Cfg.Fifo (c : Cfg ι κ) (node : Nat) (fifo : List ι) : Prop :=
  c.own.sdoPending node = fifo.head? ∧ Threaded c.sh.next fifo

omit [DecidableEq κ] [Fintype ι] [Fintype κ] in
/-- The owner adds no request to the FIFO of a suspended node. -/
theorem Ghost.fifo_sublist {o : Op ι κ} {b : o.Res} (h : Ghost cfg lim o own sh b v v')
    (hsuspended : own.misc.gate.suspended node = true)
    : (v'.fifo node).Sublist (v.fifo node) := by
  cases h with
  | @linkFirst _ _ _ _ _ m _ _ hopen | @link _ _ _ _ _ m _ _ _ _ _ hopen =>
    have hne : node ≠ m := by
      rintro rfl
      simp [hopen] at hsuspended
    simp [View.setFifo, View.put, hne]
  | @promote _ _ _ _ m _ _ _ hfifo | @popPromoted _ _ _ _ _ m _ _ hfifo
  | @popCanceled _ _ _ _ _ m _ _ _ hfifo | @unlink _ _ _ _ _ _ m _ _ _ _ hfifo =>
    by_cases heq : node = m
    . subst heq
      simp [View.setFifo, hfifo]
    . simp [View.setFifo, View.put, heq]
  | @detach _ _ _ _ m =>
    by_cases heq : node = m
    . simp [View.detach, View.setFifo, heq]
    . simp [View.detach, View.setFifo, heq]
  | _ => exact List.Sublist.refl _

omit [Fintype ι] [Fintype κ] in
theorem Moved.fifo_sublist (h : Moved cfg lim own sh v own' sh' v')
    (hsuspended : own.misc.gate.suspended node = true)
    : (v'.fifo node).Sublist (v.fifo node) := by
  cases h with
  | turn | env => exact List.Sublist.refl _
  | exec _ hghost => exact hghost.fifo_sublist hsuspended

/-- The owner begins no transfer with a suspended node. -/
theorem Inv.not_begins_suspended {o : Op ι κ} {b : o.Res} (h : Inv cfg lim own sh v)
    (hghost : Ghost cfg lim o own sh b v v') (hsuspended : own.misc.gate.suspended node = true)
    : ¬o.begins sh node := by
  intro hbegins
  cases hghost with
  | look hlooks => cases o <;> simp_all [Op.begins, Op.looks]
  | @start r _ _ _ _ m hplace hopen =>
    have hnode := (h.requests r).node_eq m (by simp [hplace, Place.node?])
    obtain rfl : m = node := hnode.symm.trans hbegins
    simp [hopen] at hsuspended
  | @activate _ _ _ _ _ m _ _ _ hopen =>
    obtain rfl : m = node := hbegins
    simp [hopen] at hsuspended
  | _ => exact hbegins

omit [Fintype ι] [Fintype κ] in
/-- The gate changes only by events. -/
theorem Moved.gate (h : Moved cfg lim own sh v own' sh' v')
    : ∃ later, own'.misc.gateLog = own.misc.gateLog ++ later
      ∧ own'.misc.gate = own.misc.gate.run later := by
  cases h with
  | turn | env => exact ⟨[], by simp, rfl⟩
  | exec hexec hghost =>
    obtain heq | hstep := Inv.exec_misc hexec hghost
    . rw [heq]
      exact ⟨[], by simp, rfl⟩
    . exact hstep.gate

/--
The reset hold of a node. It comes with a suspension; along every run it survives all events but a
Boot-up for which no boot is running, a boot completion of the node and the cleanup; the owner begins
no transfer with a suspended node and adds no request to its FIFO; and a command to node 0 writes the
gate like the same command to each node in turn.
-/
theorem reset_hold (hreach : (machine ι κ cfg).Reach (Starts cfg) c)
    : c.own.misc.gate = Gate.opened.run c.own.misc.gateLog
      ∧ (∀ node, c.own.misc.gate.resetPending node = true → c.own.misc.gate.suspended node = true)
      ∧ (∀ c', (machine ι κ cfg).Steps c c' →
        ∃ later, c'.own.misc.gateLog = c.own.misc.gateLog ++ later
          ∧ c'.own.misc.gate = c.own.misc.gate.run later
          ∧ ∀ node, c.own.misc.gate.resetPending node = true →
            (∀ e ∈ later, e.clears node = false) → c'.own.misc.gate.resetPending node = true)
      ∧ (∀ node, c.own.misc.gate.suspended node = true →
        (∀ o, c.next? = some o → ¬o.begins c.sh node)
        ∧ ∀ c' : Cfg ι κ, (machine ι κ cfg).Step c c' →
          ∃ fifo fifo', c.Fifo node fifo ∧ c'.Fifo node fifo' ∧ fifo'.Sublist fifo)
      ∧ ∀ command, c.own.misc.gate.apply (.command 0 command)
        = c.own.misc.gate.run ((List.range' 1 numNodes).map (.command · command)) := by
  obtain ⟨v, hgood⟩ := good_of_reach hreach
  have hinv := hgood.1
  refine ⟨hinv.gate, ?_, ?_, ?_, fun command => Gate.apply_broadcast _ command⟩
  . rw [hinv.gate]
    exact Gate.held_run Gate.held_opened _
  . intro c' hsteps
    obtain ⟨v', hgood', later, hlog, hgate⟩ := steps_induction
      (P := fun own _ _ => ∃ later, own.misc.gateLog = c.own.misc.gateLog ++ later
        ∧ own.misc.gate = c.own.misc.gate.run later) hgood hsteps ⟨[], by simp, rfl⟩ (by
        rintro own sh v own' sh' v' _ ⟨later, hlog, hgate⟩ hmoved
        obtain ⟨later', hlog', hgate'⟩ := hmoved.gate
        exact ⟨later ++ later', by rw [hlog', hlog, List.append_assoc],
          by rw [hgate', hgate, Gate.run_append]⟩)
    refine ⟨later, hlog, hgate, ?_⟩
    intro node hreset hclears
    rw [hgate]
    exact Gate.resetPending_run hreset hclears
  . intro node hsuspended
    refine ⟨?_, ?_⟩
    . intro o hnext
      have hrun : o.run {} c.own c.sh = o.run {} c.own c.sh := rfl
      obtain ⟨v', hghost⟩ := ghost_of_next hgood hnext hrun (permits_none ..)
      exact hinv.not_begins_suspended hghost hsuspended
    . intro c' hstep
      obtain ⟨v', hgood', hmoved⟩ := moved_of_step hgood (unrestricted_step hstep)
      exact ⟨v.fifo node, v'.fifo node,
        ⟨hinv.lists.pending_eq node, hinv.lists.fifo_threaded node⟩,
        ⟨hgood'.1.lists.pending_eq node, hgood'.1.lists.fifo_threaded node⟩,
        hmoved.fifo_sublist hsuspended⟩

/-- A command that resets node 5 is accepted. -/
theorem reset_hold_command
    : ∃ c : Cfg Unit Unit, (machine Unit Unit .small).Reach (Starts .small) c
      ∧ c.own.misc.gateLog = [.command 5 .resetNode] ∧ c.own.misc.gate.suspended 5 = true := by
  obtain ⟨c, hreach, hc⟩ := reach_of_runAlong (starts_blank Unit Unit .small)
    (Choice.starts ++ List.replicate 10 (.poster () (.nmt 5 .resetNode)) ++ Choice.dispatches
      ++ Choice.owners 14 { pick := true })
    (fun c => c.own.misc.gateLog = [.command 5 .resetNode]
      ∧ c.own.misc.gate.resetPending 5 = true) (by decide +kernel)
  simp only [decide_eq_true_eq] at hc
  exact ⟨c, hreach, hc.1, (reset_hold hreach).2.1 5 hc.2⟩

end LelyRtt
