import LelyRtt.Protocol.Place

/-!
This module contains what one step of an application thread does: to its request, to the history of
the request and to the state that all threads share.
-/

namespace LelyRtt

variable {ι κ : Type} [DecidableEq ι] [DecidableEq κ]

/-- What a step of an application thread does beyond its own request. -/
inductive Effect (ι κ : Type) where
  | none
  | nextId
  | callback (diff : Int)
  | unpin
  | wake
  | post (command : Command ι κ) (pc : PostPc)

def Effect.apply (cfg : BuildConfig) (r : ι) (sh : Shared ι κ) : Effect ι κ → Shared ι κ
  | .none => sh
  | .nextId => { sh with sdoNextRequestId := sh.sdoNextRequestId + 1 }
  | .callback diff => { sh with callbackRefs := sh.callbackRefs + diff }
  | .unpin => { sh with sdoCancelRefs := sh.sdoCancelRefs - 1 }
  | .wake => { sh with eventCommand := true }
  | .post command pc => (commandPostStep cfg (.app r) command pc sh).2

/-- The request, its program point and its history after a step. -/
def Shared.settle (sh : Shared ι κ) (r : ι) (pc : AppPc) (request : Request ι)
    (evs : List ReqEvent) : Shared ι κ :=
  {
    sh with
      app := Function.update sh.app r pc
      heap := Function.update sh.heap r request
      hist := Function.update sh.hist r (sh.hist r ++ evs)
  }

/--
The steps of the application thread of `r` in the state `sh`: the program point and the request
before the step, the effect, and the program point, the request and the new events after it.
-/
inductive AppMove (cfg : BuildConfig) (r : ι) (sh : Shared ι κ)
    : AppPc → Request ι → Effect ι κ → AppPc → Request ι → List ReqEvent → Prop
  | cancel {request} : AppMove cfg r sh .idle request .none .cancelLoad request []
  | destroy {request} : AppMove cfg r sh .idle request .none .destroyLoad request []
  | post {request args} : args.valid →
      AppMove cfg r sh .idle request .none (.postLocalId args) request []
  | postInvalid {request} :
      AppMove cfg r sh .idle request .none .idle request [.postRet .inval]
  | postLocal {request args} :
      AppMove cfg r sh (.postLocalId args) request .none .idle request [.postRet .inval]
  | postRemote {request args} :
      AppMove cfg r sh (.postLocalId args) request .none (.postState args) request []
  | postBusy {request args err} : err ≠ .ok →
      AppMove cfg r sh (.postState args) request .none .idle request [.postRet err]
  | postState {request args} : request.state = .new →
      AppMove cfg r sh (.postState args) request .none (.postId args) request []
  | postId {request args id} :
      AppMove cfg r sh (.postId args) request .nextId (.postFill args id) request []
  | postFill {request args id} : AppMove cfg r sh (.postFill args id) request .none .postQueued
      (args.fill id request) [.result .app]
  | postQueued {request} : AppMove cfg r sh .postQueued request .none (.postCommand .latched)
      { request with state := .queued } []
  | command {request pc next} :
      (commandPostStep cfg (.app r) (.sdo r) pc sh).1 = .inl next →
      AppMove cfg r sh (.postCommand pc) request (.post (.sdo r) pc) (.postCommand next) request []
  | commandOk {request pc} : (commandPostStep cfg (.app r) (.sdo r) pc sh).1 = .inr .ok →
      AppMove cfg r sh (.postCommand pc) request (.post (.sdo r) pc) .idle request [.postRet .ok]
  | commandFailed {request pc err} :
      (commandPostStep cfg (.app r) (.sdo r) pc sh).1 = .inr err → err ≠ .ok →
      AppMove cfg r sh (.postCommand pc) request (.post (.sdo r) pc) (.postNew err) request []
  | postNew {request err} : AppMove cfg r sh (.postNew err) request .none (.postClear err)
      { request with state := .new } []
  | postClear {request err} : AppMove cfg r sh (.postClear err) request .none .idle request.clear
      [.postRet err]
  | cancelNext {request pc next} : pc.retrying → cancelNext request.state = .inl next →
      AppMove cfg r sh pc request .none next request []
  | cancelRet {request pc err} : pc.retrying → cancelNext request.state = .inr err →
      AppMove cfg r sh pc request .none .idle request [.cancelRet none err]
  | pin {request kind} : request.state = kind.base →
      AppMove cfg r sh (.cancelPin kind) request .none (.cancelIdent kind)
        { request with state := kind.pinned } []
  | cancelQueued {request} : request.state = .queued →
      AppMove cfg r sh .cancelQueued request .none .idle { request with state := .cancelPending }
        [.cancelRet (some .queued) .ok]
  | cancelPending {request} : request.runtime = true →
      AppMove cfg r sh (.cancelIdent .pending) request .none
        (.callbackLoad ⟨.pending, true, request.nodeId, request.requestId, false⟩) request []
  | cancelActive {request} : request.runtime = true →
      AppMove cfg r sh (.cancelIdent .active) request .none
        (.cancelCommand ⟨.active, true, request.nodeId, request.requestId, false⟩ .latched)
        request []
  | callbackClosed {request ctx} : sh.callbackQuiescing = true →
      AppMove cfg r sh (.callbackLoad ctx) request .none (.unpin ctx .busy) request []
  | callbackLoad {request ctx} :
      AppMove cfg r sh (.callbackLoad ctx) request .none (.callbackAdd ctx) request []
  | callbackAdd {request ctx} :
      AppMove cfg r sh (.callbackAdd ctx) request (.callback 1) (.callbackCheck ctx) request []
  | callbackLate {request ctx} : sh.callbackQuiescing = true →
      AppMove cfg r sh (.callbackCheck ctx) request .none (.callbackUndo ctx) request []
  | callbackCheck {request ctx} : AppMove cfg r sh (.callbackCheck ctx) request .none
      (.cancelCommand { ctx with runtimePin := true } .latched) request []
  | callbackUndo {request ctx} : AppMove cfg r sh (.callbackUndo ctx) request (.callback (-1))
      (.unpin ctx .busy) request []
  | cancelCommand {request ctx pc next} :
      (commandPostStep cfg (.app r) (.sdoCancel ctx.nodeId ctx.requestId) pc sh).1 = .inl next →
      AppMove cfg r sh (.cancelCommand ctx pc) request
        (.post (.sdoCancel ctx.nodeId ctx.requestId) pc) (.cancelCommand ctx next) request []
  | cancelPosted {request ctx pc err} :
      (commandPostStep cfg (.app r) (.sdoCancel ctx.nodeId ctx.requestId) pc sh).1 = .inr err →
      AppMove cfg r sh (.cancelCommand ctx pc) request
        (.post (.sdoCancel ctx.nodeId ctx.requestId) pc) (.unpin ctx err) request []
  | unpinWake {request ctx err} : request.state = ctx.kind.pinned → ctx.kind = .pending →
      ctx.runtimePin = true → err ≠ .ok → AppMove cfg r sh (.unpin ctx err) request .none
        (.wake ctx err) { request with state := .pending } []
  | unpin {request ctx err} : request.state = ctx.kind.pinned → ctx.runtimePin = true →
      (ctx.kind = .pending → err = .ok) → AppMove cfg r sh (.unpin ctx err) request .none
        (.callbackRelease ctx err)
        { request with state := releasedState ctx.kind (err = .ok) } []
  | unpinRet {request ctx err} : request.state = ctx.kind.pinned → ctx.runtimePin = false →
      AppMove cfg r sh (.unpin ctx err) request .none .idle
        { request with state := releasedState ctx.kind (err = .ok) }
        [.cancelRet (some ctx.kind.base) err]
  | unpinStaged {request ctx err} : request.state = ctx.kind.staged →
      AppMove cfg r sh (.unpin ctx err) request .none (.unpinRead ctx err) request []
  | unpinRead {request ctx err} : AppMove cfg r sh (.unpinRead ctx err) request .none
      (.unpinHold { ctx with runtime := request.runtime } err) request []
  | unpinHold {request ctx err} : AppMove cfg r sh (.unpinHold ctx err) request .none
      (.unpinDone ctx err) { request with completionRefs := 1 } []
  | unpinDone {request ctx err} : request.state = ctx.kind.staged →
      AppMove cfg r sh (.unpinDone ctx err) request .none (.unpinSend ctx err)
        { request with state := .done } [.setDone .app]
  | unpinSend {request ctx err} : AppMove cfg r sh (.unpinSend ctx err) request .none
      (.unpinClear ctx err) { request with completion := true } [.sendDone .app]
  | unpinClear {request ctx err} : AppMove cfg r sh (.unpinClear ctx err) request .none
      (.unpinSub ctx err) { request with completionRefs := 0 } [.clearRefs .app]
  | unpinSub {request ctx err} : ctx.runtime = true → ctx.runtimePin = true →
      AppMove cfg r sh (.unpinSub ctx err) request .unpin (.callbackRelease ctx err) request []
  | unpinSubRet {request ctx err} : ctx.runtime = true → ctx.runtimePin = false →
      AppMove cfg r sh (.unpinSub ctx err) request .unpin .idle request
        [.cancelRet (some ctx.kind.base) err]
  | wake {request ctx err} :
      AppMove cfg r sh (.wake ctx err) request .wake (.callbackRelease ctx err) request []
  | callbackRelease {request ctx err} : AppMove cfg r sh (.callbackRelease ctx err) request
      (.callback (-1)) .idle request [.cancelRet (some ctx.kind.base) err]
  | destroyLoad {request} : request.state = .new ∨ request.state = .done →
      AppMove cfg r sh .destroyLoad request .none .destroyRefs request []
  | destroyBusy {request} :
      AppMove cfg r sh .destroyLoad request .none .idle request [.destroyRet .busy]
  | destroyRefs {request} : request.completionRefs = 0 →
      AppMove cfg r sh .destroyRefs request .none .destroyFree request []
  | destroySpin {request} : AppMove cfg r sh .destroyRefs request .none .destroyRefs request []
  | destroyFree {request} :
      AppMove cfg r sh .destroyFree request .none .destroyed request [.destroyRet .ok]

section

omit [DecidableEq κ]

variable (sh : Shared ι κ) (r : ι) (pc pc' : AppPc) (request : Request ι) (evs : List ReqEvent)

theorem Shared.setApp_eq : sh.setApp r pc = sh.settle r pc (sh.heap r) [] := by
  simp [Shared.setApp, Shared.settle]

theorem Shared.modify_eq (f : Request ι → Request ι)
    : sh.modify r f = sh.settle r (sh.app r) (f (sh.heap r)) [] := by
  simp [Shared.modify, Shared.settle]

theorem Shared.note_eq (e : ReqEvent) : sh.note r e = sh.settle r (sh.app r) (sh.heap r) [e] := by
  simp [Shared.note, Shared.settle]

theorem Shared.settle_settle (request' : Request ι) (evs' : List ReqEvent)
    : (sh.settle r pc request evs).settle r pc' request' evs'
      = sh.settle r pc' request' (evs ++ evs') := by
  simp [Shared.settle]

theorem Shared.settle_self : sh = sh.settle r (sh.app r) (sh.heap r) [] := by
  simp [Shared.settle]

@[simp]
theorem Shared.settle_app_self : (sh.settle r pc request evs).app r = pc := by
  simp [Shared.settle]

@[simp]
theorem Shared.settle_heap_self : (sh.settle r pc request evs).heap r = request := by
  simp [Shared.settle]

theorem cancelFinish_eq (r : ι) (sh : Shared ι κ) (ctx : CancelCtx) (err : RtErr) (reschedule : Bool)
    : cancelFinish r sh ctx err reschedule =
        sh.settle r
          (if reschedule ∧ ctx.runtimePin then .wake ctx err
            else if ctx.runtimePin then .callbackRelease ctx err else .idle)
          (sh.heap r)
          (if ctx.runtimePin then [] else [.cancelRet (some ctx.kind.base) err]) := by
  unfold cancelFinish
  cases ctx.runtimePin <;> cases reschedule
    <;> simp [Shared.setApp_eq, Shared.note_eq, Shared.settle_settle]

end

theorem commandPostStep_threads (cfg : BuildConfig) (tid : Tid ι κ) (command : Command ι κ)
    (pc : PostPc) (sh : Shared ι κ)
    : (commandPostStep cfg tid command pc sh).2.heap = sh.heap
      ∧ (commandPostStep cfg tid command pc sh).2.hist = sh.hist
      ∧ (commandPostStep cfg tid command pc sh).2.app = sh.app := by
  fun_cases commandPostStep cfg tid command pc sh <;> simp [Shared.noteReturn]

/--
What the protocol of a request rules out: the branches of a cancel call for a request without a
runtime, and those for a pinned or staged request that another thread changed.
-/
structure AppPc.Possible (pc : AppPc) (request : Request ι) : Prop where
  ident : ∀ kind, pc = .cancelIdent kind → request.runtime = true
  unpin : ∀ ctx err, pc = .unpin ctx err →
    request.state = ctx.kind.pinned ∨ request.state = ctx.kind.staged
  unpinDone : ∀ ctx err, pc = .unpinDone ctx err → request.state = ctx.kind.staged
  unpinSub : ∀ ctx err, pc = .unpinSub ctx err → ctx.runtime = true

/-- The step to the program point, the request and the events is the step from `sh` to `sh'`. -/
def AppMove.Of (cfg : BuildConfig) (r : ι) (sh sh' : Shared ι κ) : Prop :=
  ∃ eff pc request evs, AppMove cfg r sh (sh.app r) (sh.heap r) eff pc request evs
    ∧ sh' = (eff.apply cfg r sh).settle r pc request evs

theorem AppMove.Of.mk {cfg : BuildConfig} {r : ι} {sh sh' : Shared ι κ} {old pc request evs} (eff : Effect ι κ)
    (hpc : sh.app r = old)
    (hmove : AppMove cfg r sh old (sh.heap r) eff pc request evs)
    (heq : some ((eff.apply cfg r sh).settle r pc request evs) = some sh')
    : AppMove.Of cfg r sh sh' := by
  refine ⟨eff, pc, request, evs, hpc ▸ hmove, ?_⟩
  injection heq with heq
  exact heq.symm

theorem Effect.apply_post {cfg : BuildConfig} {r : ι} {sh sh' : Shared ι κ} {command : Command ι κ}
    {pc : PostPc} {res : PostPc ⊕ RtErr} (h : commandPostStep cfg (.app r) command pc sh = (res, sh'))
    : sh'.heap = sh.heap ∧ (commandPostStep cfg (.app r) command pc sh).1 = res
      ∧ sh' = (Effect.post command pc).apply cfg r sh := by
  have hheap := (commandPostStep_threads cfg (.app r) command pc sh).1
  simp only [h] at hheap
  simp [Effect.apply, h, hheap]

theorem cancelFinish_unpin {cfg : BuildConfig} {r : ι} {sh sh' : Shared ι κ} {ctx : CancelCtx}
    {err : RtErr} (hpc : sh.app r = .unpin ctx err) (hpinned : (sh.heap r).state = ctx.kind.pinned)
    (h : some (cancelFinish r (sh.settle r (.unpin ctx err)
      { sh.heap r with state := releasedState ctx.kind (err = .ok) } []) ctx err
      (!(decide (err = .ok)) && decide (ctx.kind = .pending))) = some sh')
    : AppMove.Of cfg r sh sh' := by
  rw [cancelFinish_eq] at h
  cases hpin : ctx.runtimePin with
  | false =>
    simp only [hpin, Shared.settle_settle, Shared.settle_heap_self, Bool.false_eq_true, and_false,
      ↓reduceIte] at h
    exact .mk .none hpc (.unpinRet hpinned hpin) h
  | true =>
    simp only [hpin, Shared.settle_settle, Shared.settle_heap_self, and_true, ↓reduceIte] at h
    split at h
    next hwake =>
      obtain ⟨herr, hkind⟩ : ¬err = .ok ∧ ctx.kind = .pending := by simpa using hwake
      simp only [releasedState, herr, hkind] at h
      exact .mk .none hpc (.unpinWake hpinned hkind hpin herr) h
    next hwake =>
      refine .mk .none hpc (.unpin hpinned hpin ?_) h
      intro hkind
      by_contra herr
      exact hwake (by simp [herr, hkind])

theorem cancelContinue_cases {cfg : BuildConfig} {r : ι} {sh sh' : Shared ι κ} {pc : AppPc}
    (hpc : sh.app r = pc) (hretry : pc.retrying)
    (h : some (cancelContinue r sh (cancelNext (sh.heap r).state)) = some sh')
    : AppMove.Of cfg r sh sh' := by
  cases hnext : cancelNext (sh.heap r).state with
  | inl next =>
    simp only [cancelContinue, hnext, Shared.setApp_eq] at h
    exact .mk .none hpc (.cancelNext hretry hnext) h
  | inr err =>
    simp only [cancelContinue, hnext, Shared.setApp_eq, Shared.note_eq, Shared.settle_settle, Shared.settle_app_self, Shared.settle_heap_self] at h
    exact .mk .none hpc (.cancelRet hretry hnext) h

theorem appStep_cases {cfg : BuildConfig} {r : ι} {call : AppCall} {sh sh' : Shared ι κ}
    (hpossible : (sh.app r).Possible (sh.heap r)) (h : appStep cfg r call sh = some sh')
    : AppMove.Of cfg r sh sh' := by
  unfold appStep at h
  simp only [Shared.setState, Shared.setCompletionRefs, Shared.sendCompletion, Shared.setApp_eq,
    Shared.modify_eq, Shared.note_eq, Shared.settle_settle, Shared.settle_app_self,
    Shared.settle_heap_self, List.nil_append] at h
  cases hpc : sh.app r with
  | idle =>
    simp only [hpc] at h
    cases call with
    | post args =>
      simp only at h
      split at h
      next hvalid => exact .mk .none hpc (.post hvalid) h
      next => exact .mk .none hpc .postInvalid h
    | cancel => exact .mk .none hpc .cancel h
    | destroy => exact .mk .none hpc .destroy h
  | postLocalId args =>
    simp only [hpc] at h
    split at h
    next => exact .mk .none hpc .postLocal h
    next => exact .mk .none hpc .postRemote h
  | postState args =>
    simp only [hpc] at h
    split at h
    next => exact .mk .none hpc (.postBusy (by decide)) h
    next hnew =>
      split at h
      next => exact .mk .none hpc (.postBusy (by decide)) h
      next =>
        split at h
        next => exact .mk .none hpc (.postBusy (by decide)) h
        next => exact .mk .none hpc (.postState (by simpa using hnew)) h
  | postId args =>
    simp only [hpc] at h
    exact .mk .nextId hpc .postId h
  | postFill args id =>
    simp only [hpc] at h
    exact .mk .none hpc .postFill h
  | postQueued =>
    simp only [hpc] at h
    exact .mk .none hpc .postQueued h
  | postCommand pc =>
    simp only [hpc] at h
    split at h
    next pc' sh₁ hstep =>
      obtain ⟨hheap, hres, heff⟩ := Effect.apply_post hstep
      rw [hheap, heff] at h
      exact .mk (.post (.sdo r) pc) hpc (.command hres) h
    next sh₁ hstep =>
      obtain ⟨hheap, hres, heff⟩ := Effect.apply_post hstep
      rw [hheap, heff] at h
      exact .mk (.post (.sdo r) pc) hpc (.commandOk hres) h
    next err sh₁ hne hstep =>
      obtain ⟨hheap, hres, heff⟩ := Effect.apply_post hstep
      rw [hheap, heff] at h
      exact .mk (.post (.sdo r) pc) hpc (.commandFailed hres hne) h
  | postNew err =>
    simp only [hpc] at h
    exact .mk .none hpc .postNew h
  | postClear err =>
    simp only [hpc] at h
    exact .mk .none hpc .postClear h
  | cancelLoad =>
    simp only [hpc] at h
    exact cancelContinue_cases hpc rfl h
  | cancelPin kind =>
    simp only [hpc] at h
    split at h
    next hbase => exact .mk .none hpc (.pin hbase) h
    next => exact cancelContinue_cases hpc rfl h
  | cancelQueued =>
    simp only [hpc] at h
    split at h
    next hqueued => exact .mk .none hpc (.cancelQueued hqueued) h
    next => exact cancelContinue_cases hpc rfl h
  | cancelIdent kind =>
    have hruntime := hpossible.ident kind hpc
    simp only [hpc, hruntime, Bool.not_true, Bool.false_eq_true, ↓reduceIte] at h
    cases kind with
    | pending => exact .mk .none hpc (.cancelPending hruntime) h
    | active => exact .mk .none hpc (.cancelActive hruntime) h
  | callbackLoad ctx =>
    simp only [hpc] at h
    split at h
    next hclosed => exact .mk .none hpc (.callbackClosed hclosed) h
    next => exact .mk .none hpc .callbackLoad h
  | callbackAdd ctx =>
    simp only [hpc] at h
    exact .mk (.callback 1) hpc .callbackAdd h
  | callbackCheck ctx =>
    simp only [hpc] at h
    split at h
    next hclosed => exact .mk .none hpc (.callbackLate hclosed) h
    next => exact .mk .none hpc .callbackCheck h
  | callbackUndo ctx =>
    simp only [hpc] at h
    exact .mk (.callback (-1)) hpc .callbackUndo h
  | cancelCommand ctx pc =>
    simp only [hpc] at h
    split at h
    next pc' sh₁ hstep =>
      obtain ⟨hheap, hres, heff⟩ := Effect.apply_post hstep
      rw [hheap, heff] at h
      exact .mk (.post (.sdoCancel ctx.nodeId ctx.requestId) pc) hpc (.cancelCommand hres) h
    next err sh₁ hstep =>
      obtain ⟨hheap, hres, heff⟩ := Effect.apply_post hstep
      rw [hheap, heff] at h
      exact .mk (.post (.sdoCancel ctx.nodeId ctx.requestId) pc) hpc (.cancelPosted hres) h
  | unpin ctx err =>
    simp only [hpc] at h
    split at h
    next hpinned => exact cancelFinish_unpin hpc hpinned h
    next hpinned =>
      have hstaged := (hpossible.unpin ctx err hpc).resolve_left hpinned
      simp only [hstaged, ↓reduceIte] at h
      exact .mk .none hpc (.unpinStaged hstaged) h
  | unpinRead ctx err =>
    simp only [hpc] at h
    exact .mk .none hpc .unpinRead h
  | unpinHold ctx err =>
    simp only [hpc] at h
    exact .mk .none hpc .unpinHold h
  | unpinDone ctx err =>
    have hstaged := hpossible.unpinDone ctx err hpc
    simp only [hpc, hstaged, ↓reduceIte] at h
    exact .mk .none hpc (.unpinDone hstaged) h
  | unpinSend ctx err =>
    simp only [hpc] at h
    exact .mk .none hpc .unpinSend h
  | unpinClear ctx err =>
    simp only [hpc] at h
    exact .mk .none hpc .unpinClear h
  | unpinSub ctx err =>
    have hruntime := hpossible.unpinSub ctx err hpc
    simp only [hpc, hruntime, cancelFinish_eq, Bool.false_eq_true, false_and, ↓reduceIte] at h
    cases hpin : ctx.runtimePin with
    | true =>
      simp only [hpin, ↓reduceIte] at h
      exact .mk .unpin hpc (.unpinSub hruntime hpin) h
    | false =>
      simp only [hpin, Bool.false_eq_true, ↓reduceIte] at h
      exact .mk .unpin hpc (.unpinSubRet hruntime hpin) h
  | wake ctx err =>
    simp only [hpc] at h
    exact .mk .wake hpc .wake h
  | callbackRelease ctx err =>
    simp only [hpc] at h
    exact .mk (.callback (-1)) hpc .callbackRelease h
  | destroyLoad =>
    simp only [hpc] at h
    split at h
    next hstate => exact .mk .none hpc (.destroyLoad hstate) h
    next => exact .mk .none hpc .destroyBusy h
  | destroyRefs =>
    simp only [hpc] at h
    split at h
    next hrefs => exact .mk .none hpc (.destroyRefs hrefs) h
    next =>
      rw [Shared.settle_self sh r, hpc] at h
      exact .mk .none hpc .destroySpin h
  | destroyFree =>
    simp only [hpc] at h
    exact .mk .none hpc .destroyFree h
  | destroyed => simp [hpc] at h
end LelyRtt
