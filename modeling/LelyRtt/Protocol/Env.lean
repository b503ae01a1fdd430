import LelyRtt.Protocol.Commands

/-!
This module contains what the steps of all other threads do, in the form in which the invariant of
the owner needs them, and shows that they keep the protocol of every request.
-/

namespace LelyRtt

open Conc

variable {ι κ : Type}

/-- The requests are the same up to their completion bits and returned waits. -/
structure SameRequests (sh sh' : Shared ι κ) : Prop where
  app : sh'.app = sh.app
  heap : ∀ r, ∃ completion, sh'.heap r = { sh.heap r with completion := completion }
  hist : ∀ r e, (∀ err, e ≠ .waitRet err) → (e ∈ sh'.hist r ↔ e ∈ sh.hist r)
  completion : ∀ r, completion (sh'.hist r) = completion (sh.hist r)
  cancelRefs : sh'.sdoCancelRefs = sh.sdoCancelRefs
  callbackRefs : sh'.callbackRefs = sh.callbackRefs
  callbackQuiescing : sh'.callbackQuiescing = sh.callbackQuiescing
  event : sh.eventCommand = true → sh'.eventCommand = true

theorem SameRequests.of_eq {sh sh' : Shared ι κ} (happ : sh'.app = sh.app)
    (hheap : sh'.heap = sh.heap) (hhist : sh'.hist = sh.hist)
    (hcancel : sh'.sdoCancelRefs = sh.sdoCancelRefs) (hrefs : sh'.callbackRefs = sh.callbackRefs)
    (hquiescing : sh'.callbackQuiescing = sh.callbackQuiescing)
    (hevent : sh.eventCommand = true → sh'.eventCommand = true) : SameRequests sh sh' where
  app := happ
  heap r := ⟨(sh.heap r).completion, by rw [hheap]⟩
  hist r e _ := by rw [hhist]
  completion r := by rw [hhist]
  cancelRefs := hcancel
  callbackRefs := hrefs
  callbackQuiescing := hquiescing
  event := hevent

/-- The posts of all threads are the same, and so is the queue. -/
structure SamePosts (sh sh' : Shared ι κ) : Prop where
  posting : sh'.posting = sh.posting
  poster : sh'.poster = sh.poster
  refs : sh'.commandRefs = sh.commandRefs
  mq : sh'.commandMq = sh.commandMq
  sent : sh'.sent = sh.sent
  returned : sh'.returned = sh.returned
  latched : sh.commandStopLatched = true → sh'.commandStopLatched = true

variable [DecidableEq ι] [DecidableEq κ]

theorem Commands.same [Fintype ι] [Fintype κ] {cfg : BuildConfig} {own : Own ι κ}
    {sh sh' : Shared ι κ} {v : View ι} (h : Commands cfg own sh v) (hsame : SamePosts sh sh')
    : Commands cfg own sh' v := by
  have hqueue : sh'.queue = sh.queue := by simp only [Shared.queue, hsame.mq]
  exact
    {
      taken_eq := by simpa only [hqueue, hsame.sent] using h.taken_eq
      queue_length := by simpa only [hqueue] using h.queue_length
      sent_eq := by simpa only [hsame.sent, hsame.returned, hsame.posting] using h.sent_eq
      refs_eq := by simpa only [hsame.refs, hsame.posting] using h.refs_eq
      no_queue := by simpa only [hsame.mq] using h.no_queue
      sending := by simpa only [hsame.posting] using h.sending
      latched := fun hclosing => hsame.latched (h.latched hclosing)
      idle := by simpa only [hsame.posting] using h.idle
      drained := by simpa only [hqueue] using h.drained
    }

/-- The steps beside the owner. -/
inductive EnvMove (cfg : BuildConfig) (sh sh' : Shared ι κ) : Prop
  | app {eff : Effect ι κ} {pc : AppPc} {request : Request ι} {evs : List ReqEvent} (r : ι) :
      AppMove cfg r sh (sh.app r) (sh.heap r) eff pc request evs →
      sh' = (eff.apply cfg r sh).settle r pc request evs → EnvMove cfg sh sh'
  | poster (i : κ) : CommandStep cfg (.poster i) sh sh' →
      (∀ tid, tid ≠ .poster i → sh'.posting tid = sh.posting tid) →
      (∀ command pc, sh'.poster i = .posting command pc →
        command.foreign i ∨ ∃ pc, sh.poster i = .posting command pc) →
      (∀ j, j ≠ i → sh'.poster j = sh.poster j) → SameRequests sh sh' → EnvMove cfg sh sh'
  | other : SamePosts sh sh' → SameRequests sh sh' → EnvMove cfg sh sh'

section

variable (cfg : BuildConfig) (tid : Tid ι κ) (command : Command ι κ) (pc : PostPc)
  (sh : Shared ι κ)

/-- A step of a post changes nothing that is not about commands. -/
theorem commandPostStep_same
    : SameRequests sh (commandPostStep cfg tid command pc sh).2
      ∧ (commandPostStep cfg tid command pc sh).2.poster = sh.poster := by
  fun_cases commandPostStep cfg tid command pc sh
  all_goals exact ⟨.of_eq rfl rfl rfl rfl rfl rfl (by simp [Shared.noteReturn]), rfl⟩

end

omit [DecidableEq κ] in
theorem waiterStep_cases {r : ι} {timeout : Bool} {sh sh' : Shared ι κ}
    (h : waiterStep r timeout sh = some sh')
    : ∃ pc completion evs, (∀ e ∈ evs, ∃ err, e = .waitRet err)
      ∧ sh' = (sh.settle r (sh.app r) { sh.heap r with completion := completion } evs).setWaiter r pc
    := by
  have hwait (err : RtErr) : ∀ e ∈ [ReqEvent.waitRet err], ∃ err, e = .waitRet err := by simp
  have hquiet (pc : WaiterPc) : sh.setWaiter r pc = (sh.settle r (sh.app r)
      { sh.heap r with completion := (sh.heap r).completion } []).setWaiter r pc :=
    congrArg (·.setWaiter r pc) (sh.settle_self r)
  have hret (pc : WaiterPc) (err : RtErr) : (sh.setWaiter r pc).note r (.waitRet err)
      = (sh.settle r (sh.app r) { sh.heap r with completion := (sh.heap r).completion }
        [.waitRet err]).setWaiter r pc := by
    simp [Shared.setWaiter, Shared.note, Shared.settle]
  revert h
  fun_cases waiterStep r timeout sh <;> rintro ⟨⟩
  case case1 | case3 | case5 => exact ⟨_, _, [], by simp, hquiet _⟩
  case case6 =>
    rw [Shared.modify_eq]
    exact ⟨_, false, [], by simp, rfl⟩
  all_goals exact ⟨_, _, _, hwait _, hret _ _⟩

theorem completion_append_waits {hist evs : List ReqEvent} (h : ∀ e ∈ evs, ∃ err, e = .waitRet err)
    : completion (hist ++ evs) = completion hist := by
  induction evs using List.reverseRecOn with
  | nil => simp
  | append_singleton evs e ih =>
    obtain ⟨err, rfl⟩ := h e (by simp)
    rw [← List.append_assoc, completion_append, Completion.next_waitRet]
    exact ih fun e he => h e (by simp [he])

omit [DecidableEq κ] in
theorem waiterStep_same {r : ι} {timeout : Bool} {sh sh' : Shared ι κ}
    (h : waiterStep r timeout sh = some sh') : SamePosts sh sh' ∧ SameRequests sh sh' := by
  obtain ⟨pc, bit, evs, hevs, rfl⟩ := waiterStep_cases h
  have hposting : ((sh.settle r (sh.app r) { sh.heap r with completion := bit } evs).setWaiter r
      pc).posting = sh.posting := by
    funext tid
    cases tid <;> simp [Shared.posting, Shared.settle, Shared.setWaiter]
  refine ⟨⟨hposting, rfl, rfl, rfl, rfl, rfl, id⟩, ?_⟩
  constructor
  case app => simp [Shared.settle, Shared.setWaiter]
  case heap =>
    intro r'
    by_cases heq : r' = r
    . subst heq
      exact ⟨bit, by simp [Shared.settle, Shared.setWaiter]⟩
    . exact ⟨(sh.heap r').completion, by simp [Shared.settle, Shared.setWaiter, heq]⟩
  case hist =>
    intro r' e he
    have hnotMem : e ∉ evs := by
      intro hmem
      obtain ⟨err, rfl⟩ := hevs e hmem
      exact he err rfl
    by_cases heq : r' = r
    . subst heq
      simp [Shared.settle, Shared.setWaiter, hnotMem]
    . simp [Shared.settle, Shared.setWaiter, heq]
  case completion =>
    intro r'
    by_cases heq : r' = r
    . subst heq
      simp [Shared.settle, Shared.setWaiter, completion_append_waits hevs]
    . simp [Shared.settle, Shared.setWaiter, heq]
  all_goals first | rfl | exact id

theorem posterStep_same {cfg : BuildConfig} {i : κ} {command : Command ι κ}
    {sh sh' : Shared ι κ} (h : posterStep cfg i command sh = some sh')
    : (∀ command pc, sh'.poster i = .posting command pc →
        command.foreign i ∨ ∃ pc, sh.poster i = .posting command pc)
      ∧ (∀ j, j ≠ i → sh'.poster j = sh.poster j) ∧ SameRequests sh sh' := by
  unfold posterStep at h
  split at h
  next =>
    split at h
    next hforeign =>
      cases h
      refine ⟨?_, ?_, .of_eq rfl rfl rfl rfl rfl rfl id⟩
      . intro command' pc hpc
        simp only [Shared.setPoster, Function.update_self, PosterPc.posting.injEq] at hpc
        exact .inl (hpc.1 ▸ hforeign)
      . intro j hne
        simp [Shared.setPoster, hne]
    next => cases h
  next command pc hposting =>
    obtain ⟨hsame, hposter⟩ := commandPostStep_same cfg (.poster i) command pc sh
    split at h
    next next sh₁ hstep =>
      rw [hstep] at hsame hposter
      cases h
      refine ⟨?_, ?_, { hsame with }⟩
      . intro command' pc' hpc
        simp only [Shared.setPoster, Function.update_self, PosterPc.posting.injEq] at hpc
        exact .inr ⟨pc, hpc.1 ▸ hposting⟩
      . intro j hne
        simp only at hposter
        simp [Shared.setPoster, hne, hposter]
    next err sh₁ hstep =>
      rw [hstep] at hsame hposter
      cases h
      refine ⟨?_, ?_, { hsame with }⟩
      . intro command' pc' hpc
        simp [Shared.setPoster] at hpc
      . intro j hne
        simp only at hposter
        simp [Shared.setPoster, hne, hposter]

theorem EnvStep.move {cfg : BuildConfig} {sh sh' : Shared ι κ} (h : EnvStep cfg sh sh')
    (hpossible : ∀ r, (sh.app r).Possible (sh.heap r)) : EnvMove cfg sh sh' := by
  cases h with
  | app r call hstep =>
    obtain ⟨eff, pc, request, evs, hm, heq⟩ := appStep_cases (hpossible r) hstep
    exact .app r hm heq
  | waiter r timeout hstep =>
    obtain ⟨hposts, hrequests⟩ := waiterStep_same hstep
    exact .other hposts hrequests
  | poster i command hstep =>
    obtain ⟨hcommand, hother⟩ := posterStep_commandStep hstep
    obtain ⟨hforeign, hposter, hsame⟩ := posterStep_same hstep
    exact .poster i hcommand hother hforeign hposter hsame
  | control =>
    refine .other ?_ ?_
    . have hposting : (controlStep sh).posting = sh.posting := by
        funext tid
        unfold controlStep
        cases tid <;> split <;> rfl
      refine ⟨hposting, ?_, ?_, ?_, ?_, ?_, ?_⟩
      all_goals unfold controlStep
      all_goals split <;> first | rfl | exact id | exact fun _ => rfl
    . unfold controlStep
      split <;> exact .of_eq rfl rfl rfl rfl rfl rfl id

/-- What a step of the application thread of `r` puts into the queue. -/
def AppPc.pushed (r : ι) (pc pc' : AppPc) : List (Entry ι κ) :=
  match pc, pc' with
  | .postCommand .send, .postCommand .event => [⟨.app r, .sdo r⟩]
  | .cancelCommand ctx .send, .cancelCommand _ .event =>
    [⟨.app r, .sdoCancel ctx.nodeId ctx.requestId⟩]
  | _, _ => []

omit [DecidableEq ι] [DecidableEq κ] in
theorem AppPc.mem_pushed {r : ι} {pc pc' : AppPc} {entry : Entry ι κ} (h : entry ∈ pc.pushed r pc')
    : entry.tid = .app r
      ∧ (pc = .postCommand .send ∧ pc' = .postCommand .event ∧ entry.command = .sdo r
        ∨ ∃ ctx ctx', pc = .cancelCommand ctx .send ∧ pc' = .cancelCommand ctx' .event
          ∧ entry.command = .sdoCancel ctx.nodeId ctx.requestId) := by
  unfold AppPc.pushed at h
  split at h <;> simp_all

namespace AppMove

variable {cfg : BuildConfig} {r : ι} {sh : Shared ι κ} {eff : Effect ι κ} {pc pc' : AppPc}
  {request request' : Request ι} {evs : List ReqEvent}

theorem queue (hm : AppMove cfg r sh pc request eff pc' request' evs)
    : (eff.apply cfg r sh).queue = sh.queue ++ pc.pushed r pc'
      ∧ (eff.apply cfg r sh).sent = sh.sent ++ pc.pushed r pc' := by
  cases hm with
  | @command _ old next hres =>
    obtain ⟨hqueue, hsent, _⟩ := commandPostStep_queue cfg (.app r) (.sdo r) old sh
    rw [hres] at hqueue hsent
    simp only [Effect.apply, hqueue, hsent, PostPc.pushes]
    cases old <;> cases next <;> simp [AppPc.pushed]
  | @cancelCommand _ ctx old next hres =>
    obtain ⟨hqueue, hsent, _⟩ :=
      commandPostStep_queue cfg (.app r) (.sdoCancel ctx.nodeId ctx.requestId) old sh
    rw [hres] at hqueue hsent
    simp only [Effect.apply, hqueue, hsent, PostPc.pushes]
    cases old <;> cases next <;> simp [AppPc.pushed]
  | @commandOk _ old hres | @commandFailed _ old _ hres =>
    obtain ⟨hqueue, hsent, _⟩ := commandPostStep_queue cfg (.app r) (.sdo r) old sh
    rw [hres] at hqueue hsent
    simp only [Effect.apply, hqueue, hsent, PostPc.pushes]
    simp [AppPc.pushed]
  | @cancelPosted _ ctx old _ hres =>
    obtain ⟨hqueue, hsent, _⟩ :=
      commandPostStep_queue cfg (.app r) (.sdoCancel ctx.nodeId ctx.requestId) old sh
    rw [hres] at hqueue hsent
    simp only [Effect.apply, hqueue, hsent, PostPc.pushes]
    simp [AppPc.pushed]
  | cancelNext hretry =>
    obtain rfl | ⟨_, rfl⟩ | rfl := AppPc.retrying_cases hretry <;> simp [Effect.apply, AppPc.pushed]
  | cancelRet hretry =>
    obtain rfl | ⟨_, rfl⟩ | rfl := AppPc.retrying_cases hretry <;> simp [Effect.apply, AppPc.pushed]
  | _ => simp [Effect.apply, AppPc.pushed, Shared.queue]

end AppMove

theorem Effect.apply_same (cfg : BuildConfig) (r : ι) (sh : Shared ι κ) (eff : Effect ι κ)
    : (eff.apply cfg r sh).heap = sh.heap ∧ (eff.apply cfg r sh).hist = sh.hist
      ∧ (eff.apply cfg r sh).app = sh.app ∧ (eff.apply cfg r sh).poster = sh.poster
      ∧ (eff.apply cfg r sh).callbackQuiescing = sh.callbackQuiescing
      ∧ (sh.eventCommand = true → (eff.apply cfg r sh).eventCommand = true) := by
  cases eff with
  | post command pc =>
    obtain ⟨hheap, hhist, happ⟩ := commandPostStep_threads cfg (.app r) command pc sh
    obtain ⟨hsame, hposter⟩ := commandPostStep_same cfg (.app r) command pc sh
    exact ⟨hheap, hhist, happ, hposter, hsame.callbackQuiescing, hsame.event⟩
  | _ => simp [Effect.apply]

namespace Requests

variable {cfg : BuildConfig} {own : Own ι κ} {sh sh' : Shared ι κ} {v : View ι} {r : ι}
  {eff : Effect ι κ} {pc : AppPc} {request : Request ι} {evs : List ReqEvent}

omit [DecidableEq ι] [DecidableEq κ] in
theorem possible (h : Requests own sh v) (r : ι) : (sh.app r).Possible (sh.heap r) :=
  (h r).possible

theorem app (h : Requests own sh v)
    (hm : AppMove cfg r sh (sh.app r) (sh.heap r) eff pc request evs)
    : Requests own ((eff.apply cfg r sh).settle r pc request evs) v := by
  obtain ⟨hheap, hhist, happ, _⟩ := Effect.apply_same cfg r sh eff
  have hqueue : ((eff.apply cfg r sh).settle r pc request evs).queue
      = sh.queue ++ (sh.app r).pushed r pc := hm.queue.1
  intro r'
  rw [hqueue]
  by_cases heq : r' = r
  . subst heq
    simp only [Shared.settle, Function.update_self, hhist]
    apply (h r').move hm
    rw [List.mem_append]
    apply or_congr Iff.rfl
    constructor
    . intro hmem
      obtain ⟨_, ⟨hpc, hpc', _⟩ | ⟨_, _, _, _, hcommand⟩⟩ := AppPc.mem_pushed hmem
      . exact ⟨hpc, hpc'⟩
      . cases hcommand
    . rintro ⟨hpc, hpc'⟩
      simp [hpc, hpc', AppPc.pushed]
  . have hnotMem : (⟨.app r', .sdo r'⟩ : Entry ι κ) ∉ (sh.app r).pushed r pc := by
      intro hmem
      obtain ⟨htid, _⟩ := AppPc.mem_pushed hmem
      exact heq (by simpa using htid)
    simpa [Shared.settle, heq, hheap, hhist, happ, hnotMem] using h r'

omit [DecidableEq ι] [DecidableEq κ] in
theorem same (h : Requests own sh v) (hsame : SameRequests sh sh')
    (hqueue : ∀ r, ⟨.app r, .sdo r⟩ ∈ sh'.queue ↔ ⟨.app r, .sdo r⟩ ∈ sh.queue)
    : Requests own sh' v := by
  intro r
  obtain ⟨bit, hheap⟩ := hsame.heap r
  rw [hqueue r, hsame.app, hheap]
  have hself : ReqOk (v.place r) (sh.app r) { sh.heap r with completion := bit } (sh.hist r)
      (⟨.app r, .sdo r⟩ ∈ sh.queue) (r ∈ own.started) :=
    (h r).touch rfl (by simp) rfl (by simp) (h r).next_eq
  have hposted := hsame.hist r (.postRet .ok) (by simp)
  have hearly : canceledEarly (sh'.hist r) ↔ canceledEarly (sh.hist r) :=
    or_congr (hsame.hist r _ (by simp)) (hsame.hist r _ (by simp))
  exact
    {
      hself with
        completion_fits := by simpa only [hsame.completion r] using hself.completion_fits
        posted := by simpa only [hposted] using hself.posted
        early := by simpa only [hearly] using hself.early
    }

end Requests

/-- The commands about requests that were ever sent: by the threads of the requests, once each. -/
structure Sent (sh : Shared ι κ) : Prop where
  tid_eq : ∀ entry ∈ sh.sent, ∀ r, entry.command = .sdo r → entry.tid = .app r
  nodup : (sh.sent.filterMap (·.command.sdo?)).Nodup
  published : ∀ r ∈ sh.sent.filterMap (·.command.sdo?),
    (sh.heap r).state ≠ .new ∧ (sh.app r).unsent = false
  foreign : ∀ i command pc, sh.poster i = .posting command pc → command.foreign i

namespace Sent

variable {cfg : BuildConfig} {own own' : Own ι κ} {sh sh' : Shared ι κ} {v v' : View ι} {r : ι}
  {eff : Effect ι κ} {pc : AppPc} {request : Request ι} {evs : List ReqEvent} {lim : Limits}
  {o : Op ι κ} {input : Input} {b : o.Res}

theorem posted [Fintype ι] [Fintype κ] (h : Sent sh) (hcommands : Commands cfg own sh v)
    : Requests.Posted sh where
  tid_eq entry hmem := h.tid_eq entry (by rw [← hcommands.taken_eq]; simp [hmem])
  nodup := by
    have hnodup := h.nodup
    rw [← hcommands.taken_eq, List.filterMap_append] at hnodup
    exact hnodup.of_append_right

/-- The application thread neither takes a sent request back nor sends it again. -/
theorem move_published (h : Requests own sh v)
    (hm : AppMove cfg r sh (sh.app r) (sh.heap r) eff pc request evs)
    (hold : (sh.heap r).state ≠ .new ∧ (sh.app r).unsent = false
      ∨ (⟨.app r, .sdo r⟩ : Entry ι κ) ∈ (sh.app r).pushed r pc)
    : request.state ≠ .new ∧ pc.unsent = false := by
  have hadmits := (h r).pc_admits
  obtain ⟨hnew, hunsent⟩ | hmem := hold
  . generalize sh.app r = old at *
    cases hm with
    | @command _ old _ hres =>
      have hafter := commandPostStep_after cfg (.app r) (.sdo r) old sh
      rw [hres] at hafter
      simp_all [PostPc.after, AppPc.unsent]
    | @commandFailed _ old err hres hok =>
      have hafter := commandPostStep_after cfg (.app r) (.sdo r) old sh
      rw [hres] at hafter
      cases err <;> simp_all [PostPc.after, AppPc.unsent]
    | cancelNext _ hnext =>
      obtain ⟨_, rfl⟩ | ⟨_, _, rfl⟩ := cancelNext_inl hnext <;> exact ⟨hnew, rfl⟩
    | unpinRet | unpin => exact ⟨PinKind.releasedState_ne_new _ _, rfl⟩
    | @pin _ kind => cases kind <;> simp [PinKind.pinned, AppPc.unsent]
    | _ => simp_all [AppPc.unsent, AppPc.admits]
  . obtain ⟨_, ⟨hpc, hpc', _⟩ | ⟨_, _, _, _, hcommand⟩⟩ := AppPc.mem_pushed hmem
    . generalize sh.app r = old at *
      generalize sh.heap r = oldRequest at *
      subst hpc hpc'
      cases hm with
      | command => simp_all [AppPc.unsent, AppPc.admits, PostPc.sent]
      | cancelNext hretry => simp [AppPc.retrying] at hretry
    . cases hcommand

theorem app (h : Sent sh) (hrequests : Requests own sh v)
    (hm : AppMove cfg r sh (sh.app r) (sh.heap r) eff pc request evs)
    : Sent ((eff.apply cfg r sh).settle r pc request evs) := by
  obtain ⟨hheap, hhist, happ, hposter, _⟩ := Effect.apply_same cfg r sh eff
  have hsent : ((eff.apply cfg r sh).settle r pc request evs).sent
      = sh.sent ++ (sh.app r).pushed r pc := hm.queue.2
  have hself (entry : Entry ι κ) (r' : ι) (hmem : entry ∈ (sh.app r).pushed r pc)
      (hcommand : entry.command = .sdo r') : entry.tid = .app r ∧ r' = r := by
    obtain ⟨htid, ⟨_, _, heq⟩ | ⟨_, _, _, _, heq⟩⟩ := AppPc.mem_pushed hmem
    . exact ⟨htid, by simpa [hcommand] using heq⟩
    . simp [hcommand] at heq
  have hpushed : ((sh.app r).pushed r pc : List (Entry ι κ)).filterMap (·.command.sdo?)
      = if (⟨.app r, .sdo r⟩ : Entry ι κ) ∈ (sh.app r).pushed r pc then [r] else [] := by
    unfold AppPc.pushed
    split <;> simp [Command.sdo?]
  constructor
  case tid_eq =>
    intro entry hentry r' hcommand
    rw [hsent, List.mem_append] at hentry
    obtain hentry | hentry := hentry
    . exact h.tid_eq entry hentry r' hcommand
    . obtain ⟨htid, rfl⟩ := hself entry r' hentry hcommand
      exact htid
  case nodup =>
    rw [hsent, List.filterMap_append, hpushed]
    split
    next hmem =>
      rw [List.nodup_append]
      refine ⟨h.nodup, List.nodup_singleton r, ?_⟩
      rintro r' hr' r'' hr'' rfl
      obtain rfl := List.mem_singleton.mp hr''
      obtain ⟨_, ⟨hpc, _⟩ | ⟨_, _, _, _, hcommand⟩⟩ := AppPc.mem_pushed hmem
      . have hunsent := (h.published _ hr').2
        simp [hpc, AppPc.unsent, PostPc.sent] at hunsent
      . cases hcommand
    next => simpa using h.nodup
  case published =>
    intro r' hr'
    rw [hsent, List.filterMap_append, hpushed, List.mem_append] at hr'
    by_cases heq : r' = r
    . subst heq
      simp only [Shared.settle_app_self, Shared.settle_heap_self]
      apply move_published hrequests hm
      obtain hr' | hr' := hr'
      . exact .inl (h.published r' hr')
      . split at hr'
        next hmem => exact .inr hmem
        next => simp at hr'
    . obtain hr' | hr' := hr'
      . simpa [Shared.settle, heq, hheap, happ] using h.published r' hr'
      . split at hr' <;> simp [heq] at hr'
  case foreign =>
    intro i
    simp only [Shared.settle, hposter]
    exact h.foreign i

omit [DecidableEq ι] in
theorem same (h : Sent sh) (hsame : SameRequests sh sh') (hsent : sh'.sent.filterMap (·.command.sdo?)
      = sh.sent.filterMap (·.command.sdo?))
    (htid : ∀ entry ∈ sh'.sent, ∀ r, entry.command = .sdo r → entry ∈ sh.sent)
    (hforeign : ∀ i command pc, sh'.poster i = .posting command pc → command.foreign i)
    : Sent sh' where
  tid_eq entry hentry r hcommand := h.tid_eq entry (htid entry hentry r hcommand) r hcommand
  nodup := hsent ▸ h.nodup
  published := by
    intro r hr
    obtain ⟨bit, hheap⟩ := hsame.heap r
    rw [hsame.app, hheap]
    exact h.published r (hsent ▸ hr)
  foreign := hforeign

theorem exec (h : Sent sh) (hexec : o.run input own sh = (b, own', sh'))
    (hghost : Ghost cfg lim o own sh b v v') : Sent sh' := by
  have hthreads := run_threads (o := o) input own sh
  simp only [hexec] at hthreads
  obtain ⟨happ, hposter, hsent, _⟩ := hthreads
  have hnew (r : ι) (hold : (sh.heap r).state ≠ .new) : (sh'.heap r).state ≠ .new := by
    obtain hst | ⟨expected, desired, rfl, hb, _, hst⟩ := run_state_cases hexec r
    . rwa [hst]
    . rw [hst]
      cases hghost with
      | stage pin => cases pin <;> simp [PinKind.staged]
      | claimFailed | promoteFailed | publishFailed | stageFailed => cases hb
      | look hlooks => simp [Op.looks] at hlooks
      | _ => simp
  constructor
  . rw [hsent]
    exact h.tid_eq
  . rw [hsent]
    exact h.nodup
  . rw [hsent, happ]
    exact fun r hr => ⟨hnew r (h.published r hr).1, (h.published r hr).2⟩
  . rw [hposter]
    exact h.foreign

end Sent

theorem Lists.app {cfg : BuildConfig} {own : Own ι κ} {sh : Shared ι κ} {v : View ι} {r : ι}
    {eff : Effect ι κ} {pc : AppPc} {request : Request ι} {evs : List ReqEvent}
    (h : Lists cfg own sh v) (hrequests : Requests own sh v)
    (hm : AppMove cfg r sh (sh.app r) (sh.heap r) eff pc request evs)
    : Lists cfg own ((eff.apply cfg r sh).settle r pc request evs) v := by
  obtain ⟨hheap, _⟩ := Effect.apply_same cfg r sh eff
  apply h.congr rfl rfl rfl rfl
  intro r' hlinked
  by_cases heq : r' = r
  . subst heq
    have hheld : v.place r' ≠ .away := by
      intro heq
      simp [heq, Place.linked] at hlinked
    simpa [Shared.next] using ((hrequests r').move_held hm hheld).2.2.2.1
  . simp [Shared.next, Shared.settle, hheap, heq]

omit [DecidableEq ι] [DecidableEq κ] in
theorem Lists.same {cfg : BuildConfig} {own : Own ι κ} {sh sh' : Shared ι κ} {v : View ι}
    (h : Lists cfg own sh v) (hsame : SameRequests sh sh') : Lists cfg own sh' v := by
  apply h.congr rfl rfl rfl rfl
  intro r _
  obtain ⟨bit, hheap⟩ := hsame.heap r
  simp [Shared.next, hheap]

/-- The owner knows the request ids of the requests that it holds. -/
def Idents (sh : Shared ι κ) (v : View ι) : Prop :=
  ∀ r, v.place r ≠ .away → (sh.heap r).requestId = v.ident r

namespace Idents

variable {cfg : BuildConfig} {own own' : Own ι κ} {sh sh' : Shared ι κ} {v v' : View ι} {r : ι}
  {eff : Effect ι κ} {pc : AppPc} {request : Request ι} {evs : List ReqEvent} {lim : Limits}
  {o : Op ι κ} {input : Input} {b : o.Res}

theorem app (h : Idents sh v) (hrequests : Requests own sh v)
    (hm : AppMove cfg r sh (sh.app r) (sh.heap r) eff pc request evs)
    : Idents ((eff.apply cfg r sh).settle r pc request evs) v := by
  obtain ⟨hheap, _⟩ := Effect.apply_same cfg r sh eff
  intro r' hheld
  rw [← h r' hheld]
  by_cases heq : r' = r
  . subst heq
    simpa using ((hrequests r').move_held hm hheld).2.1
  . simp [Shared.settle, hheap, heq]

omit [DecidableEq ι] [DecidableEq κ] in
theorem same (h : Idents sh v) (hsame : SameRequests sh sh') : Idents sh' v := by
  intro r hheld
  obtain ⟨bit, hheap⟩ := hsame.heap r
  rw [hheap]
  exact h r hheld

omit [DecidableEq κ] in
theorem exec (h : Idents sh v) (hexec : o.run input own sh = (b, own', sh'))
    (hghost : Ghost cfg lim o own sh b v v') (hlists : Lists cfg own sh v) : Idents sh' v' := by
  intro r hheld
  have hident := (run_ident (o := o) input own sh r).1
  rw [hexec] at hident
  rw [hident]
  obtain ⟨hheld, hsame⟩ | ⟨_, _, _, _, htaken, _⟩ := hghost.held hlists hheld
  . rw [hsame]
    exact h r hheld
  . exact htaken.symm

end Idents

end LelyRtt
