import LelyRtt.Conc.Total
import LelyRtt.Protocol.OwnerOk
import Mathlib.Data.Fintype.Sum
import Mathlib.Logic.Equiv.Defs

/-!
This module contains the part of the invariant about the command queue: what was sent and taken out,
which posts are under way, and the counter that keeps the queue alive.
-/

namespace LelyRtt

open Conc

variable {ι κ : Type}

def Tid.equiv (ι κ : Type) : ι ⊕ κ ≃ Tid ι κ where
  toFun
    | .inl r => .app r
    | .inr i => .poster i
  invFun
    | .app r => .inl r
    | .poster i => .inr i
  left_inv := by rintro (r | i) <;> rfl
  right_inv := by rintro (r | i) <;> rfl

instance [Fintype ι] [Fintype κ] : Fintype (Tid ι κ) := Fintype.ofEquiv _ (Tid.equiv ι κ)

/-- The call of `lely_rtt_master_command_post` that a thread is in. -/
def Shared.posting (sh : Shared ι κ) : Tid ι κ → Option (Command ι κ × PostPc)
  | .app r =>
    match sh.app r with
    | .postCommand pc => some (.sdo r, pc)
    | .cancelCommand ctx pc => some (.sdoCancel ctx.nodeId ctx.requestId, pc)
    | _ => none
  | .poster i =>
    match sh.poster i with
    | .posting command pc => some (command, pc)
    | .idle => none

namespace PostPc

/-- The post has raised `command_refs`. -/
def counted : PostPc → Bool
  | .latched | .quiescing | .add => false
  | _ => true

/-- The post has found the admission open after it raised `command_refs`. -/
def admitted : PostPc → Bool
  | .quiescingAgain | .queue | .send | .event | .release _ => true
  | _ => false

end PostPc

/-- The weight of a thread in `command_refs`. -/
def postWeight : Option (Command ι κ × PostPc) → Int
  | some (_, pc) => if pc.counted then 1 else 0
  | none => 0

/-- The command that is in the queue while its post has not returned. -/
def inFlight : Option (Command ι κ × PostPc) → List (Command ι κ)
  | some (command, pc) => if pc.sent then [command] else []
  | none => []

/-- The commands whose post returned `RT_EOK`. -/
def accepted (returned : List (Command ι κ × RtErr)) : List (Command ι κ) :=
  (returned.filter (·.2 = .ok)).map (·.1)

/-- The fields that posts work on are the same. -/
structure SameCommands (sh sh' : Shared ι κ) : Prop where
  refs : sh'.commandRefs = sh.commandRefs
  mq : sh'.commandMq = sh.commandMq
  sent : sh'.sent = sh.sent
  returned : sh'.returned = sh.returned
  latched : sh'.commandStopLatched = sh.commandStopLatched
  event : sh.eventCommand = true → sh'.eventCommand = true

variable [DecidableEq ι] [DecidableEq κ]

/-- A thread takes a step: outside of a post, into one, or one step of it. -/
inductive CommandStep (cfg : BuildConfig) (tid : Tid ι κ) (sh sh' : Shared ι κ) : Prop
  | outside : sh.posting tid = none → sh'.posting tid = none → SameCommands sh sh' →
      CommandStep cfg tid sh sh'
  | begin_ (command) : sh.posting tid = none → sh'.posting tid = some (command, .latched) →
      SameCommands sh sh' → CommandStep cfg tid sh sh'
  | step {command pc next} : sh.posting tid = some (command, pc) →
      (commandPostStep cfg tid command pc sh).1 = .inl next →
      sh'.posting tid = some (command, next) →
      SameCommands (commandPostStep cfg tid command pc sh).2 sh' → CommandStep cfg tid sh sh'
  | ret {command pc err} : sh.posting tid = some (command, pc) →
      (commandPostStep cfg tid command pc sh).1 = .inr err → sh'.posting tid = none →
      SameCommands (commandPostStep cfg tid command pc sh).2 sh' → CommandStep cfg tid sh sh'

theorem AppMove.commandStep {cfg : BuildConfig} {r : ι} {sh : Shared ι κ} {eff : Effect ι κ}
    {pc : AppPc} {request : Request ι} {evs : List ReqEvent}
    (hm : AppMove cfg r sh (sh.app r) (sh.heap r) eff pc request evs)
    : CommandStep cfg (.app r) sh ((eff.apply cfg r sh).settle r pc request evs) := by
  generalize hold : sh.app r = old at hm
  generalize sh.heap r = oldRequest at hm
  cases hm with
  | command hres | cancelCommand hres =>
    refine .step (by simp only [Shared.posting, hold]) hres ?_ ⟨rfl, rfl, rfl, rfl, rfl, id⟩
    simp [Shared.posting]
  | commandOk hres | commandFailed hres | cancelPosted hres =>
    refine .ret (by simp only [Shared.posting, hold]) hres ?_ ⟨rfl, rfl, rfl, rfl, rfl, id⟩
    simp [Shared.posting]
  | postQueued =>
    refine .begin_ (.sdo r) (by simp [Shared.posting, hold]) ?_ ⟨rfl, rfl, rfl, rfl, rfl, id⟩
    simp [Shared.posting]
  | @cancelActive request =>
    refine .begin_ (.sdoCancel request.nodeId request.requestId)
      (by simp [Shared.posting, hold]) ?_ ⟨rfl, rfl, rfl, rfl, rfl, id⟩
    simp [Shared.posting]
  | @callbackCheck _ ctx =>
    refine .begin_ (.sdoCancel ctx.nodeId ctx.requestId) (by simp [Shared.posting, hold]) ?_
      ⟨rfl, rfl, rfl, rfl, rfl, id⟩
    simp [Shared.posting]
  | cancelNext hretry hnext =>
    refine .outside ?_ ?_ ⟨rfl, rfl, rfl, rfl, rfl, id⟩
    . obtain rfl | ⟨_, rfl⟩ | rfl := AppPc.retrying_cases hretry <;> simp [Shared.posting, hold]
    . obtain ⟨_, rfl⟩ | ⟨_, _, rfl⟩ := cancelNext_inl hnext <;> simp [Shared.posting]
  | cancelRet hretry =>
    refine .outside ?_ (by simp [Shared.posting]) ⟨rfl, rfl, rfl, rfl, rfl, id⟩
    obtain rfl | ⟨_, rfl⟩ | rfl := AppPc.retrying_cases hretry <;> simp [Shared.posting, hold]
  | wake =>
    refine .outside ?_ ?_ ⟨rfl, rfl, rfl, rfl, rfl, fun _ => rfl⟩ <;> simp [Shared.posting, hold]
  | _ =>
    refine .outside ?_ ?_ ⟨rfl, rfl, rfl, rfl, rfl, id⟩ <;> simp [Shared.posting, hold]

/-- A step of an application thread leaves the posts of the other threads alone. -/
theorem AppMove.posting_of_ne {cfg : BuildConfig} {r : ι} {sh : Shared ι κ} (eff : Effect ι κ)
    (pc : AppPc) (request : Request ι) (evs : List ReqEvent) {tid : Tid ι κ} (htid : tid ≠ .app r)
    : ((eff.apply cfg r sh).settle r pc request evs).posting tid = sh.posting tid := by
  have happ : (eff.apply cfg r sh).app = sh.app ∧ (eff.apply cfg r sh).poster = sh.poster := by
    cases eff with
    | post command pc =>
      simp only [Effect.apply]
      fun_cases commandPostStep cfg (.app r) command pc sh <;> simp [Shared.noteReturn]
    | _ => simp [Effect.apply]
  cases tid with
  | app r' =>
    have hne : r' ≠ r := by simpa using htid
    simp [Shared.posting, Shared.settle, happ, hne]
  | poster i => simp [Shared.posting, Shared.settle, happ]

theorem posterStep_commandStep {cfg : BuildConfig} {i : κ} {command : Command ι κ}
    {sh sh' : Shared ι κ} (h : posterStep cfg i command sh = some sh')
    : CommandStep cfg (.poster i) sh sh'
      ∧ ∀ tid, tid ≠ .poster i → sh'.posting tid = sh.posting tid := by
  unfold posterStep at h
  split at h
  next hidle =>
    split at h
    next hforeign =>
      cases h
      refine ⟨.begin_ command (by simp [Shared.posting, hidle]) ?_ ⟨rfl, rfl, rfl, rfl, rfl, id⟩, ?_⟩
      . simp [Shared.posting, Shared.setPoster]
      . intro tid htid
        cases tid with
        | app r => rfl
        | poster j =>
          have hne : j ≠ i := by simpa using htid
          simp [Shared.posting, Shared.setPoster, hne]
    next => cases h
  next command pc hposting =>
    have hthreads : (commandPostStep cfg (.poster i) command pc sh).2.app = sh.app
        ∧ (commandPostStep cfg (.poster i) command pc sh).2.poster = sh.poster := by
      fun_cases commandPostStep cfg (.poster i) command pc sh <;> simp [Shared.noteReturn]
    have hpc : sh.posting (.poster i) = some (command, pc) := by simp [Shared.posting, hposting]
    have hother (sh₁ : Shared ι κ) (pc' : PosterPc ι κ) (happ : sh₁.app = sh.app)
        (hposter : sh₁.poster = sh.poster) (tid : Tid ι κ) (htid : tid ≠ .poster i)
        : (sh₁.setPoster i pc').posting tid = sh.posting tid := by
      cases tid with
      | app r => simp [Shared.posting, Shared.setPoster, happ]
      | poster j =>
        have hne : j ≠ i := by simpa using htid
        simp [Shared.posting, Shared.setPoster, hposter, hne]
    split at h
    next next sh₁ hstep =>
      rw [hstep] at hthreads
      cases h
      refine ⟨.step hpc (by rw [hstep]) ?_ (by rw [hstep]; exact ⟨rfl, rfl, rfl, rfl, rfl, id⟩),
        hother sh₁ _ hthreads.1 hthreads.2⟩
      simp [Shared.posting, Shared.setPoster]
    next err sh₁ hstep =>
      rw [hstep] at hthreads
      cases h
      refine ⟨.ret hpc (by rw [hstep]) ?_ (by rw [hstep]; exact ⟨rfl, rfl, rfl, rfl, rfl, id⟩),
        hother sh₁ _ hthreads.1 hthreads.2⟩
      simp [Shared.posting, Shared.setPoster]

omit [DecidableEq ι] [DecidableEq κ] in
theorem SameCommands.queue {sh sh' : Shared ι κ} (h : SameCommands sh sh')
    : sh'.queue = sh.queue := by
  simp only [Shared.queue, h.mq]

omit [DecidableEq ι] [DecidableEq κ] in
theorem accepted_append (returned : List (Command ι κ × RtErr)) (command : Command ι κ)
    (err : RtErr)
    : accepted (returned ++ [(command, err)])
      = accepted returned ++ if err = .ok then [command] else [] := by
  unfold accepted
  split <;> simp_all

/-- The step of the post puts its command into the queue. -/
def PostPc.pushes (pc : PostPc) (res : PostPc ⊕ RtErr) : Bool :=
  pc = .send ∧ res = .inl .event

section

variable (cfg : BuildConfig) (tid : Tid ι κ) (command : Command ι κ) (pc : PostPc)
  (sh : Shared ι κ)

theorem commandPostStep_queue
    : (commandPostStep cfg tid command pc sh).2.queue = sh.queue
        ++ (if pc.pushes (commandPostStep cfg tid command pc sh).1 then [⟨tid, command⟩] else [])
      ∧ (commandPostStep cfg tid command pc sh).2.sent = sh.sent
        ++ (if pc.pushes (commandPostStep cfg tid command pc sh).1 then [⟨tid, command⟩] else [])
      ∧ (pc.pushes (commandPostStep cfg tid command pc sh).1 →
        sh.queue.length < cfg.commandQueueDepth) := by
  fun_cases commandPostStep cfg tid command pc sh
    <;> simp_all [PostPc.pushes, Shared.noteReturn, Shared.queue]

theorem commandPostStep_returned
    : (commandPostStep cfg tid command pc sh).2.returned
      = (commandPostStep cfg tid command pc sh).1.elim (fun _ => sh.returned)
        (fun err => Function.update sh.returned tid (sh.returned tid ++ [(command, err)])) := by
  fun_cases commandPostStep cfg tid command pc sh <;> simp [Shared.noteReturn]

theorem commandPostStep_inFlight
    : inFlight (some (command, pc))
        ++ (if pc.pushes (commandPostStep cfg tid command pc sh).1 then [command] else [])
      = (commandPostStep cfg tid command pc sh).1.elim (fun next => inFlight (some (command, next)))
        (fun err => if err = .ok then [command] else []) := by
  fun_cases commandPostStep cfg tid command pc sh <;> simp [PostPc.pushes, inFlight, PostPc.sent]
  next err => cases err <;> rfl

end

theorem CommandStep.latched {tid : Tid ι κ} {cfg : BuildConfig} {sh sh' : Shared ι κ}
    (hstep : CommandStep cfg tid sh sh')
    : sh'.commandStopLatched = sh.commandStopLatched := by
  cases hstep with
  | outside _ _ hsame | begin_ _ _ _ hsame => exact hsame.latched
  | @step command pc _ _ _ _ hsame | @ret command pc _ _ _ _ hsame =>
    rw [hsame.latched]
    fun_cases commandPostStep cfg tid command pc sh <;> simp [Shared.noteReturn]

structure Commands [Fintype ι] [Fintype κ] (cfg : BuildConfig) (own : Own ι κ) (sh : Shared ι κ)
    (v : View ι) : Prop where
  taken_eq : own.taken.map (·.2) ++ sh.queue = sh.sent
  queue_length : sh.queue.length ≤ cfg.commandQueueDepth
  sent_eq : ∀ tid, (sh.sent.filter (·.tid = tid)).map (·.command)
    = accepted (sh.returned tid) ++ inFlight (sh.posting tid)
  refs_eq : sh.commandRefs = total fun tid => postWeight (sh.posting tid)
  no_queue : v.phase.created = false → sh.commandMq = none
  sending : ∀ tid command, sh.posting tid = some (command, .send) → v.phase.created = true
  latched : v.phase.closing = true → sh.commandStopLatched = true
  idle : v.phase.idle = true → v.phase.closing = true
    ∧ ∀ tid command pc, sh.posting tid = some (command, pc) → pc.admitted = false
  drained : v.phase.drained = true → v.phase.idle = true ∧ sh.queue = []

namespace Commands

variable [Fintype ι] [Fintype κ] {cfg : BuildConfig} {own : Own ι κ} {sh sh' : Shared ι κ}
  {v : View ι} {tid : Tid ι κ}

section

variable (h : Commands cfg own sh v) (hstep : CommandStep cfg tid sh sh')
include h hstep

theorem step_queue_length : sh'.queue.length ≤ cfg.commandQueueDepth := by
  have hlength := h.queue_length
  cases hstep with
  | outside _ _ hsame | begin_ _ _ _ hsame => rwa [Shared.queue, hsame.mq]
  | @step command pc _ _ _ _ hsame | @ret command pc _ _ _ _ hsame =>
    obtain ⟨hqueue, _, hroom⟩ := commandPostStep_queue cfg tid command pc sh
    rw [show sh'.queue = _ from hsame.queue, hqueue]
    split
    next hpush =>
      have hroom := hroom hpush
      simp only [List.length_append, List.length_singleton]
      omega
    next => simpa using hlength

theorem step_taken : own.taken.map (·.2) ++ sh'.queue = sh'.sent := by
  cases hstep with
  | outside _ _ hsame | begin_ _ _ _ hsame => rw [hsame.queue, hsame.sent, h.taken_eq]
  | @step command pc _ _ _ _ hsame | @ret command pc _ _ _ _ hsame =>
    obtain ⟨hqueue, hsent, _⟩ := commandPostStep_queue cfg tid command pc sh
    rw [hsame.queue, hsame.sent, hqueue, hsent, ← List.append_assoc, h.taken_eq]

theorem step_no_queue (hcreated : v.phase.created = false) : sh'.commandMq = none := by
  have hmq := h.no_queue hcreated
  have hsend (command : Command ι κ) : sh.posting tid ≠ some (command, .send) := by
    intro hposting
    have hnow := h.sending tid command hposting
    simp [hcreated] at hnow
  cases hstep with
  | outside _ _ hsame | begin_ _ _ _ hsame => rw [hsame.mq, hmq]
  | @step command pc _ hpc _ _ hsame | @ret command pc _ hpc _ _ hsame =>
    rw [hsame.mq]
    rw [hpc] at hsend
    fun_cases commandPostStep cfg tid command pc sh <;> simp_all [Shared.noteReturn]

theorem step_drained (hdrained : v.phase.drained = true) : sh'.queue = [] := by
  obtain ⟨hidle, hempty⟩ := h.drained hdrained
  have hnone := (h.idle hidle).2
  cases hstep with
  | outside _ _ hsame | begin_ _ _ _ hsame => rw [hsame.queue, hempty]
  | @step command pc _ hpc _ _ hsame | @ret command pc _ hpc _ _ hsame =>
    obtain ⟨hqueue, _, _⟩ := commandPostStep_queue cfg tid command pc sh
    have hpush : ∀ res, pc.pushes res = false := by
      intro res
      have hadmitted := hnone tid command pc hpc
      cases pc <;> simp_all [PostPc.pushes, PostPc.admitted]
    rw [hsame.queue, hqueue, hempty, hpush]
    rfl

variable (hother : ∀ tid', tid' ≠ tid → sh'.posting tid' = sh.posting tid')
include hother

theorem step_refs : sh'.commandRefs = total fun tid => postWeight (sh'.posting tid) := by
  rw [total_change tid (fun t ht => by rw [hother t ht]), ← h.refs_eq]
  cases hstep with
  | outside hold hnew hsame => simp [hsame.refs, hold, hnew]
  | begin_ command hold hnew hsame => simp [hsame.refs, hold, hnew, postWeight, PostPc.counted]
  | @step command pc next hold hres hnew hsame =>
    rw [hsame.refs, hold, hnew]
    revert hres
    fun_cases commandPostStep cfg tid command pc sh
      <;> simp only [reduceCtorEq, false_implies, Sum.inl.injEq]
      <;> rintro rfl <;> simp [postWeight, PostPc.counted]
  | @ret command pc err hold hres hnew hsame =>
    rw [hsame.refs, hold, hnew]
    revert hres
    fun_cases commandPostStep cfg tid command pc sh
      <;> simp [postWeight, PostPc.counted, Shared.noteReturn] <;> omega

theorem step_sent (t : Tid ι κ) : (sh'.sent.filter (·.tid = t)).map (·.command)
    = accepted (sh'.returned t) ++ inFlight (sh'.posting t) := by
  have hold := h.sent_eq t
  by_cases ht : t = tid
  . subst ht
    cases hstep with
    | outside hpc hpc' hsame => rwa [hsame.sent, hsame.returned, hpc', ← hpc]
    | begin_ _ hpc hpc' hsame =>
      rw [hsame.sent, hsame.returned, hpc']
      simpa [hpc, inFlight, PostPc.sent] using hold
    | @step command pc next hpc hres hpc' hsame =>
      obtain ⟨_, hsent, _⟩ := commandPostStep_queue cfg t command pc sh
      have hflight := commandPostStep_inFlight cfg t command pc sh
      rw [hres] at hflight
      rw [hres] at hsent
      rw [hsame.sent, hsame.returned, commandPostStep_returned, hres, hpc', hsent,
        List.filter_append, List.map_append, hold, hpc, List.append_assoc]
      simp only [Sum.elim_inl] at hflight ⊢
      rw [← hflight]
      split <;> simp
    | @ret command pc err hpc hres hpc' hsame =>
      obtain ⟨_, hsent, _⟩ := commandPostStep_queue cfg t command pc sh
      have hflight := commandPostStep_inFlight cfg t command pc sh
      rw [hres] at hflight
      rw [hres] at hsent
      rw [hsame.sent, hsame.returned, commandPostStep_returned, hres, hpc', hsent,
        List.filter_append, List.map_append, hold, hpc, List.append_assoc]
      simp only [Sum.elim_inr, Function.update_self, accepted_append, inFlight] at hflight ⊢
      rw [List.append_nil, ← hflight]
      simp [PostPc.pushes]
  . rw [hother t ht]
    cases hstep with
    | outside _ _ hsame | begin_ _ _ _ hsame => rwa [hsame.sent, hsame.returned]
    | @step command pc _ _ hres _ hsame | @ret command pc _ _ hres _ hsame =>
      obtain ⟨_, hsent, _⟩ := commandPostStep_queue cfg tid command pc sh
      have hne : ¬tid = t := fun heq => ht heq.symm
      rw [hsame.sent, hsame.returned, commandPostStep_returned, hres, hsent, List.filter_append,
        List.map_append, hold]
      split <;> simp [ht, hne]

theorem step_sending (t : Tid ι κ) (command : Command ι κ)
    (hsend : sh'.posting t = some (command, .send)) : v.phase.created = true := by
  by_cases ht : t = tid
  . subst ht
    by_contra hcreated
    have hmq := h.no_queue (by simpa using hcreated)
    cases hstep with
    | outside _ hpc' => simp [hpc'] at hsend
    | begin_ _ _ hpc' => simp [hpc'] at hsend
    | @step command pc next hpc hres hpc' hsame =>
      rw [hpc'] at hsend
      revert hres
      fun_cases commandPostStep cfg t command pc sh <;> simp_all
    | ret _ _ hpc' => simp [hpc'] at hsend
  . exact h.sending t command (hother t ht ▸ hsend)

theorem step_idle (hidle : v.phase.idle = true) (t : Tid ι κ) (command : Command ι κ) (pc : PostPc)
    (hposting : sh'.posting t = some (command, pc)) : pc.admitted = false := by
  obtain ⟨hclosing, hnone⟩ := h.idle hidle
  have hlatched := h.latched hclosing
  by_cases ht : t = tid
  . subst ht
    cases hstep with
    | outside _ hpc' => simp [hpc'] at hposting
    | begin_ _ _ hpc' =>
      rw [hpc'] at hposting
      simp only [Option.some_inj, Prod.mk.injEq] at hposting
      simp [← hposting.2, PostPc.admitted]
    | @step command' pc' next hpc hres hpc' hsame =>
      have hold := hnone t command' pc' hpc
      rw [hpc'] at hposting
      simp only [Option.some_inj, Prod.mk.injEq] at hposting
      rw [← hposting.2]
      revert hres hold
      fun_cases commandPostStep cfg t command' pc' sh
        <;> simp only [reduceCtorEq, false_implies, Sum.inl.injEq]
        <;> rintro rfl <;> simp_all [PostPc.admitted]
    | ret _ _ hpc' => simp [hpc'] at hposting
  . exact hnone t command pc (hother t ht ▸ hposting)

theorem env_step : Commands cfg own sh' v where
  taken_eq := h.step_taken hstep
  queue_length := h.step_queue_length hstep
  sent_eq := h.step_sent hstep hother
  refs_eq := h.step_refs hstep hother
  no_queue := h.step_no_queue hstep
  sending := h.step_sending hstep hother
  latched := by
    rw [hstep.latched]
    exact h.latched
  idle := fun hidle => ⟨(h.idle hidle).1, h.step_idle hstep hother hidle⟩
  drained := fun hdrained => ⟨(h.drained hdrained).1, h.step_drained hstep hdrained⟩

end

variable {own' : Own ι κ} {v' : View ι} {lim : Limits} {o : Op ι κ} {input : Input} {b : o.Res}

theorem congr (h : Commands cfg own sh v) (hposting : sh'.posting = sh.posting)
    (hsent : sh'.sent = sh.sent) (hreturned : sh'.returned = sh.returned)
    (hrefs : sh'.commandRefs = sh.commandRefs) (htaken : own'.taken = own.taken)
    (hmq : sh'.commandMq = sh.commandMq)
    (hlatched : sh'.commandStopLatched = sh.commandStopLatched)
    (hcreated : v'.phase.created = v.phase.created)
    (hclosing : v'.phase.closing = v.phase.closing) (hidle : v'.phase.idle = v.phase.idle)
    (hdrained : v'.phase.drained = v.phase.drained)
    : Commands cfg own' sh' v' := by
  have hqueue : sh'.queue = sh.queue := by simp only [Shared.queue, hmq]
  constructor
  all_goals simp only [hposting, hsent, hreturned, hrefs, htaken, hmq, hlatched, hcreated, hclosing,
    hidle, hdrained, hqueue]
  exacts [h.taken_eq, h.queue_length, h.sent_eq, h.refs_eq, h.no_queue, h.sending, h.latched,
    h.idle, h.drained]

/-- Most operations keep everything that posts depend on. -/
theorem frame (h : Commands cfg own sh v) (hexec : o.run input own sh = (b, own', sh'))
    (ho : o.keepsCommands) (hcreated : v'.phase.created = v.phase.created)
    (hclosing : v'.phase.closing = v.phase.closing) (hidle : v'.phase.idle = v.phase.idle)
    (hdrained : v'.phase.drained = v.phase.drained)
    : Commands cfg own' sh' v' := by
  have hthreads := run_threads (o := o) input own sh
  have hcommands := run_commands input own sh ho
  simp only [hexec] at hthreads hcommands
  obtain ⟨happ, hposter, hsent, hreturned, hrefs⟩ := hthreads
  obtain ⟨htaken, hmq, hlatched⟩ := hcommands
  refine h.congr ?_ hsent hreturned hrefs htaken hmq hlatched hcreated hclosing hidle hdrained
  funext tid
  cases tid with
  | app r => simp only [Shared.posting, happ]
  | poster i => simp only [Shared.posting, hposter]

/-- No post is past its admission when `command_refs` is zero. -/
theorem not_admitted (h : Commands cfg own sh v) (hrefs : sh.commandRefs = 0) {command : Command ι κ}
    {pc : PostPc} (hposting : sh.posting tid = some (command, pc)) : pc.admitted = false := by
  have hnonneg (tid : Tid ι κ) : 0 ≤ postWeight (sh.posting tid) := by
    unfold postWeight
    split <;> (try split) <;> simp
  have hle := le_total hnonneg tid
  rw [← h.refs_eq, hrefs, hposting] at hle
  cases pc <;> simp_all [postWeight, PostPc.counted, PostPc.admitted]

theorem queue_eq_nil (h : Commands cfg own sh v)
    (hphase : v.phase.created = false ∨ v.phase.drained = true) : sh.queue = [] := by
  obtain hcreated | hdrained := hphase
  . simp [Shared.queue, h.no_queue hcreated]
  . exact (h.drained hdrained).2

theorem receive (h : Commands cfg own sh v) {by_ : TakenBy} {entry : Entry ι κ}
    {rest : List (Entry ι κ)} (hqueue : sh.queue = entry :: rest)
    (hcreated : v'.phase.created = v.phase.created)
    (hclosing : v'.phase.closing = v.phase.closing) (hidle : v'.phase.idle = v.phase.idle)
    (hdrained : v'.phase.drained = v.phase.drained)
    : Commands cfg { own with taken := own.taken ++ [(by_, entry)] }
        { sh with commandMq := some rest } v' where
  taken_eq := by
    have htaken := h.taken_eq
    rw [hqueue] at htaken
    simpa [Shared.queue] using htaken
  queue_length := by
    have hlength := h.queue_length
    rw [hqueue] at hlength
    simp only [Shared.queue, Option.getD_some]
    simp only [List.length_cons] at hlength
    omega
  sent_eq := h.sent_eq
  refs_eq := h.refs_eq
  no_queue := by
    intro hnone
    rw [hcreated] at hnone
    simp [h.queue_eq_nil (.inl hnone)] at hqueue
  sending := by
    rw [hcreated]
    exact h.sending
  latched := by
    rw [hclosing]
    exact h.latched
  idle := by
    rw [hclosing, hidle]
    exact h.idle
  drained := by
    intro hnone
    rw [hdrained] at hnone
    simp [h.queue_eq_nil (.inr hnone)] at hqueue

theorem exec (h : Commands cfg own sh v) (hexec : o.run input own sh = (b, own', sh'))
    (hghost : Ghost cfg lim o own sh b v v') : Commands cfg own' sh' v' := by
  cases hghost with
  | receiveNone =>
    obtain ⟨_, rfl, rfl⟩ := run_mqReceive_none hexec
    exact h
  | receiveSdo | receiveCancel | receiveOther =>
    obtain ⟨entry, rest, hqueue, _, rfl, rfl⟩ := run_mqReceive_some hexec
    exact h.receive hqueue rfl rfl rfl rfl
  | latch =>
    cases hexec
    exact { h with latched := fun _ => rfl, idle := fun hidle => ⟨rfl, (h.idle hidle).2⟩ }
  | commandsIdle hclosing =>
    obtain ⟨hrefs, rfl, rfl⟩ := run_loadCommandRefs hexec
    exact
      {
        h with
          idle := fun _ => ⟨hclosing, fun _ _ _ hposting => h.not_admitted hrefs hposting⟩
          drained := fun hdrained => ⟨rfl, (h.drained hdrained).2⟩
      }
  | create hcreated =>
    cases hexec
    have hqueue := h.queue_eq_nil (.inl hcreated)
    have htaken := h.taken_eq
    rw [hqueue] at htaken
    exact
      {
        h with
          taken_eq := htaken
          queue_length := Nat.zero_le _
          no_queue := by simp
          sending := fun _ _ _ => rfl
          drained := fun hdrained => ⟨(h.drained hdrained).1, rfl⟩
      }
  | noQueue hidle =>
    obtain ⟨hmq, rfl, rfl⟩ := run_mqExists hexec
    have hqueue : sh.queue = [] := by
      simp only [Option.isSome_eq_false_iff, Option.isNone_iff_eq_none] at hmq
      simp [Shared.queue, hmq]
    exact { h with drained := fun _ => ⟨hidle, hqueue⟩ }
  | emptyQueue hidle =>
    obtain ⟨hqueue, rfl, rfl⟩ := run_mqReceive_none hexec
    exact { h with drained := fun _ => ⟨hidle, hqueue⟩ }
  | delete hdrained =>
    cases hexec
    have hqueue := h.queue_eq_nil (.inr hdrained)
    have htaken := h.taken_eq
    rw [hqueue] at htaken
    exact
      {
        h with
          taken_eq := htaken
          queue_length := Nat.zero_le _
          no_queue := fun _ => rfl
          drained := fun hdrained => ⟨(h.drained hdrained).1, rfl⟩
      }
  | look hlooks => cases o <;> simp [Op.looks] at hlooks <;> exact h.frame hexec rfl rfl rfl rfl rfl
  | _ => exact h.frame hexec rfl rfl rfl rfl rfl

end Commands

end LelyRtt
