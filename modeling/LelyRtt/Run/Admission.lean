import LelyRtt.Protocol.Trace

/-!
This module contains the results about the admission of commands: no post uses the command queue
after the owner has seen that all posts are over, and the commands that the owner takes out of the
queue are those whose post succeeded.
-/

namespace LelyRtt

open Conc

variable {ι κ : Type} [DecidableEq ι] [DecidableEq κ] [Fintype ι] [Fintype κ]
  {cfg : BuildConfig} {lim : Limits} {own own' : Own ι κ} {sh sh' : Shared ι κ} {v v' : View ι}
  {c : Cfg ι κ} {tid : Tid ι κ}

/-- The next step of the post reads `command_mq` or sends to it. -/
def PostPc.usesQueue : PostPc → Bool
  | .queue | .send => true
  | _ => false

/-- The commands of a thread that were taken out of the queue, in this order. -/
def Own.takenOf (own : Own ι κ) (tid : Tid ι κ) : List (Command ι κ) :=
  ((own.taken.map (·.2)).filter (·.tid = tid)).map (·.command)

/-- The commands of a thread in the queue, in this order. -/
def Shared.queueOf (sh : Shared ι κ) (tid : Tid ι κ) : List (Command ι κ) :=
  (sh.queue.filter (·.tid = tid)).map (·.command)

namespace Commands

variable (h : Commands cfg own sh v)
include h

/-- The commands of a thread that entered the queue are those that it posted with success. -/
theorem takenOf_append (tid : Tid ι κ)
    : own.takenOf tid ++ sh.queueOf tid = accepted (sh.returned tid) ++ inFlight (sh.posting tid) := by
  rw [← h.sent_eq tid, ← h.taken_eq, List.filter_append, List.map_append]
  rfl

theorem not_usesQueue (hidle : v.phase.idle = true) {command : Command ι κ} {pc : PostPc}
    (hposting : sh.posting tid = some (command, pc)) : pc.usesQueue = false := by
  have hadmitted := (h.idle hidle).2 tid command pc hposting
  cases pc <;> simp_all [PostPc.usesQueue, PostPc.admitted]

theorem inFlight_eq_nil (hidle : v.phase.idle = true) (tid : Tid ι κ)
    : inFlight (sh.posting tid) = [] := by
  cases hposting : sh.posting tid with
  | none => rfl
  | some post =>
    obtain ⟨command, pc⟩ := post
    have hadmitted := (h.idle hidle).2 tid command pc hposting
    cases pc <;> simp_all [inFlight, PostPc.admitted, PostPc.sent]

/-- Once the queue is drained the owner has taken out what was posted with success. -/
theorem takenOf_eq (hdrained : v.phase.drained = true) (tid : Tid ι κ)
    : own.takenOf tid = accepted (sh.returned tid) := by
  obtain ⟨hidle, hqueue⟩ := h.drained hdrained
  have happend := h.takenOf_append tid
  rw [h.inFlight_eq_nil hidle tid] at happend
  simpa [Shared.queueOf, hqueue] using happend

end Commands

omit [Fintype ι] [Fintype κ] in
/-- The owner does not go back behind a phase of its run. -/
theorem Moved.phase_mono (h : Moved cfg lim own sh v own' sh' v')
    : (v.phase.idle = true → v'.phase.idle = true)
      ∧ (v.phase.drained = true → v'.phase.drained = true) := by
  cases h with
  | turn | env => exact ⟨id, id⟩
  | exec _ hghost => cases hghost <;> simp [View.put, View.setFifo, View.setSettled, View.detach,
      View.taken]

/--
The admission of commands. After `lely_rtt_master_command_wait_idle` has returned in the cleanup no
post uses the queue. At any time what was taken out and what is in the queue is, in this order, what
was sent, and for each thread it is what the thread posted with success; when the cleanup has drained
the queue all of this was taken out.
-/
theorem commands_accounted (hreach : (machine ι κ cfg).Reach (Starts cfg) c)
    : (Point.commandsIdle.rank ≤ c.own.point.rank → ∀ c' : Cfg ι κ, (machine ι κ cfg).Steps c c' →
        ∀ tid command pc, c'.sh.posting tid = some (command, pc) → pc.usesQueue = false)
      ∧ c.own.taken.map (·.2) ++ c.sh.queue = c.sh.sent
      ∧ (∀ tid, c.own.takenOf tid ++ c.sh.queueOf tid
        = accepted (c.sh.returned tid) ++ inFlight (c.sh.posting tid))
      ∧ (Point.drained.rank ≤ c.own.point.rank → ∀ c' : Cfg ι κ, (machine ι κ cfg).Steps c c' →
        ∀ tid, c'.own.takenOf tid = accepted (c'.sh.returned tid)) := by
  obtain ⟨v, hgood⟩ := good_of_reach hreach
  have hinv := hgood.1
  refine ⟨?_, hinv.commands.taken_eq, hinv.commands.takenOf_append, ?_⟩
  . intro hrank c' hsteps tid command pc hposting
    obtain ⟨v', hgood', hidle⟩ := steps_induction (P := fun _ _ v => v.phase.idle = true) hgood
      hsteps (hinv.pins.point.1 hrank) (fun _ _ _ _ _ _ _ hidle hmoved => hmoved.phase_mono.1 hidle)
    exact hgood'.1.commands.not_usesQueue hidle hposting
  . intro hrank c' hsteps tid
    obtain ⟨v', hgood', hdrained⟩ := steps_induction (P := fun _ _ v => v.phase.drained = true)
      hgood hsteps (hinv.pins.point.2.1 hrank)
      (fun _ _ _ _ _ _ _ hdrained hmoved => hmoved.phase_mono.2 hdrained)
    exact hgood'.1.commands.takenOf_eq hdrained tid

/-- The command of a request that is posted while the owner waits is drained at the end of the run. -/
theorem commands_accounted_drained
    : ∃ c : Cfg Unit Unit, (machine Unit Unit .small).Reach (Starts .small) c
      ∧ accepted (c.sh.returned (.app ())) = [.sdo ()] ∧ c.own.takenOf (.app ()) = [.sdo ()] := by
  obtain ⟨c, hreach, _, _, _, haccepted, hpoint, _⟩ := reach_destroyed
  refine ⟨c, hreach, haccepted, ?_⟩
  rw [(commands_accounted hreach).2.2.2 (by rw [hpoint]; decide) c .refl, haccepted]

end LelyRtt
