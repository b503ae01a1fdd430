import LelyRtt.Protocol.Env

/-!
This module contains the part of the invariant about the two counters that keep the runtime alive
for canceling threads, `sdo_cancel_refs` and `callback_refs`, and about the phases of the run that
these counters separate.
-/

namespace LelyRtt

open Conc

variable {ι κ : Type}

namespace AppPc

/-- The canceling thread has raised `callback_refs` and not lowered it yet. -/
def holdsCallback : AppPc → Bool
  | .callbackCheck _ | .callbackUndo _ => true
  | .cancelCommand ctx _ | .unpin ctx _ | .unpinRead ctx _ | .unpinHold ctx _ | .unpinDone ctx _
  | .unpinSend ctx _ | .unpinClear ctx _ | .unpinSub ctx _ | .wake ctx _ | .callbackRelease ctx _ =>
    ctx.runtimePin
  | _ => false

/-- The thread is in a cancel call that has claimed a pending or active request. -/
def canceling : AppPc → Bool
  | .cancelIdent _ | .callbackLoad _ | .callbackAdd _ | .callbackCheck _ | .callbackUndo _
  | .cancelCommand _ _ | .unpin _ _ | .unpinRead _ _ | .unpinHold _ _ | .unpinDone _ _
  | .unpinSend _ _ | .unpinClear _ _ | .unpinSub _ _ | .wake _ _ | .callbackRelease _ _ => true
  | _ => false

/-- The pin flag that a canceling thread carries follows its way through the call. -/
def pinOk : AppPc → Bool
  | .callbackLoad ctx | .callbackAdd ctx | .callbackCheck ctx | .callbackUndo ctx =>
    ctx.kind = .pending ∧ !ctx.runtimePin
  | .cancelCommand ctx _ => ctx.runtimePin == decide (ctx.kind = .pending)
  | .wake ctx _ | .callbackRelease ctx _ => ctx.runtimePin
  | _ => true

end AppPc

/-- The weight of a request in `sdo_cancel_refs`: staged, or published and not yet decremented. -/
def cancelWeight (st : ReqState) (pc : AppPc) : Int :=
  (if st.staged then 1 else 0) + if pc.publishing.isSome then 1 else 0

def callbackWeight (pc : AppPc) : Int := pc.holdsCallback.toInt

/-- The weight of the owner in `sdo_cancel_refs`. -/
def PinStage.weight : PinStage → Int
  | .none => 0
  | .beforeCas | .afterFailedCas => 1

structure Pins [Fintype ι] (own : Own ι κ) (sh : Shared ι κ) (v : View ι) : Prop where
  cancelRefs_eq : sh.sdoCancelRefs
    = (total fun r => cancelWeight (sh.heap r).state (sh.app r)) + own.pinStage.weight
  callbackRefs_eq : v.phase.reset = true →
    sh.callbackRefs = total fun r => callbackWeight (sh.app r)
  pinOk : ∀ r, (sh.app r).pinOk
  notOpened : v.phase.opened = false → ∀ r, v.place r = .away ∧ (sh.app r).canceling = false
  callbackQuiescing : sh.callbackQuiescing = true → v.phase.closing = true ∨ v.phase.opened = false
  unpinned : ∀ r ctx, ctx.kind = .pending → ctx.runtimePin = false →
    (∃ err, sh.app r = .unpin ctx err) ∨ sh.app r = .callbackUndo ctx → v.phase.closing = true
  pinsIdle : v.phase.pinsIdle = true → v.phase.drained = true ∧ own.pinStage = .none
    ∧ (∀ r, v.place r = .away) ∧ sh.sdoCancelRefs = 0
  point : (2 ≤ own.point.rank → v.phase.idle = true) ∧ (3 ≤ own.point.rank → v.phase.drained = true)
    ∧ (4 ≤ own.point.rank → v.phase.pinsIdle = true)

namespace Effect

def cancelDiff : Effect ι κ → Int
  | .unpin => -1
  | _ => 0

def callbackDiff : Effect ι κ → Int
  | .callback diff => diff
  | _ => 0

variable [DecidableEq ι] [DecidableEq κ] (cfg : BuildConfig) (r : ι) (sh : Shared ι κ)
  (eff : Effect ι κ)

theorem apply_cancelRefs
    : (eff.apply cfg r sh).sdoCancelRefs = sh.sdoCancelRefs + eff.cancelDiff := by
  cases eff with
  | post command pc =>
    simp only [apply, cancelDiff, Int.add_zero]
    exact (commandPostStep_same cfg (.app r) command pc sh).1.cancelRefs
  | unpin => simp [apply, cancelDiff, Int.sub_eq_add_neg]
  | _ => simp [apply, cancelDiff]

theorem apply_callbackRefs
    : (eff.apply cfg r sh).callbackRefs = sh.callbackRefs + eff.callbackDiff := by
  cases eff with
  | post command pc =>
    simp only [apply, callbackDiff, Int.add_zero]
    exact (commandPostStep_same cfg (.app r) command pc sh).1.callbackRefs
  | _ => simp [apply, callbackDiff]

end Effect

section

variable [DecidableEq ι] [DecidableEq κ] {cfg : BuildConfig} {r : ι} {sh : Shared ι κ}
  {eff : Effect ι κ} {pc pc' : AppPc} {request request' : Request ι} {evs : List ReqEvent}

theorem AppMove.cancelWeight (hm : AppMove cfg r sh pc request eff pc' request' evs)
    (hadmits : pc.admits request.state)
    : cancelWeight request'.state pc' = cancelWeight request.state pc + eff.cancelDiff := by
  cases hm with
  | cancelNext hretry hnext =>
    obtain ⟨_, rfl⟩ | ⟨_, _, rfl⟩ := cancelNext_inl hnext
      <;> obtain rfl | ⟨_, rfl⟩ | rfl := AppPc.retrying_cases hretry
      <;> simp [LelyRtt.cancelWeight, AppPc.publishing, Effect.cancelDiff]
  | cancelRet hretry =>
    obtain rfl | ⟨_, rfl⟩ | rfl := AppPc.retrying_cases hretry
      <;> simp [LelyRtt.cancelWeight, AppPc.publishing, Effect.cancelDiff]
  | @pin _ kind hst =>
    cases kind <;> simp [LelyRtt.cancelWeight, AppPc.publishing, Effect.cancelDiff, hst,
      PinKind.pinned, PinKind.base, ReqState.staged]
  | @unpin _ ctx err hst | @unpinRet _ ctx err hst =>
    cases hkind : ctx.kind <;> cases err <;> simp [LelyRtt.cancelWeight, AppPc.publishing,
      Effect.cancelDiff, hst, hkind, PinKind.pinned, PinKind.base, ReqState.staged, releasedState]
  | @unpinDone _ ctx _ hst =>
    cases hkind : ctx.kind <;> simp [LelyRtt.cancelWeight, AppPc.publishing, Effect.cancelDiff, hst,
      hkind, PinKind.staged, ReqState.staged]
  | _ => simp_all [LelyRtt.cancelWeight, AppPc.publishing, Effect.cancelDiff, AppPc.admits,
      ReqState.staged, PostArgs.fill, Request.clear, PinKind.pinned]

theorem AppMove.callbackWeight (hm : AppMove cfg r sh pc request eff pc' request' evs)
    (hpin : pc.pinOk) : callbackWeight pc' = callbackWeight pc + eff.callbackDiff := by
  cases hm with
  | cancelNext hretry hnext =>
    obtain ⟨_, rfl⟩ | ⟨_, _, rfl⟩ := cancelNext_inl hnext
      <;> obtain rfl | ⟨_, rfl⟩ | rfl := AppPc.retrying_cases hretry
      <;> simp [LelyRtt.callbackWeight, AppPc.holdsCallback, Effect.callbackDiff]
  | cancelRet hretry =>
    obtain rfl | ⟨_, rfl⟩ | rfl := AppPc.retrying_cases hretry
      <;> simp [LelyRtt.callbackWeight, AppPc.holdsCallback, Effect.callbackDiff]
  | _ => simp_all [LelyRtt.callbackWeight, AppPc.holdsCallback, Effect.callbackDiff, AppPc.pinOk]

theorem AppMove.pinOk (hm : AppMove cfg r sh pc request eff pc' request' evs)
    (hpin : pc.pinOk) : pc'.pinOk := by
  cases hm with
  | cancelNext hretry hnext =>
    obtain ⟨_, rfl⟩ | ⟨_, _, rfl⟩ := cancelNext_inl hnext <;> rfl
  | _ => simp_all [AppPc.pinOk]

theorem AppMove.cancelDiff (hm : AppMove cfg r sh pc request eff pc' request' evs)
    (hpc : pc.publishing = none) : eff.cancelDiff = 0 := by
  cases hm <;> simp_all [Effect.cancelDiff, AppPc.publishing]

/-- A thread cancels a pending request without a pin only when the callbacks are closed. -/
theorem AppMove.unpinned (hm : AppMove cfg r sh pc request eff pc' request' evs)
    (hpin : pc.pinOk) {ctx : CancelCtx} (hkind : ctx.kind = .pending)
    (hctx : ctx.runtimePin = false) (hpc' : (∃ err, pc' = .unpin ctx err) ∨ pc' = .callbackUndo ctx)
    : sh.callbackQuiescing = true ∧ pc.canceling = true ∨ pc = .callbackUndo ctx := by
  cases hm with
  | cancelNext hretry hnext => obtain ⟨_, rfl⟩ | ⟨_, _, rfl⟩ := cancelNext_inl hnext <;> simp at hpc'
  | callbackClosed hclosed | callbackLate hclosed => exact .inl ⟨hclosed, rfl⟩
  | callbackUndo => simp_all
  | cancelPosted =>
    obtain ⟨err, heq⟩ | heq := hpc'
    . cases heq
      simp [AppPc.pinOk, hkind, hctx] at hpin
    . cases heq
  | _ => simp at hpc'

/-- A thread begins to cancel a request that the owner holds. -/
theorem AppMove.canceling (hm : AppMove cfg r sh pc request eff pc' request' evs)
    (hpc : pc.canceling = false) (hpc' : pc'.canceling = true)
    : request.state = .pending ∨ request.state = .active := by
  cases hm with
  | cancelNext hretry hnext =>
    obtain ⟨_, rfl⟩ | ⟨_, _, rfl⟩ := cancelNext_inl hnext <;> simp [AppPc.canceling] at hpc'
  | @pin _ kind hst => cases kind <;> simp [hst, PinKind.base]
  | _ => simp_all [AppPc.canceling]

end

namespace Pins

variable [Fintype ι] [DecidableEq ι] {cfg : BuildConfig} {own own' : Own ι κ}
  {sh sh' : Shared ι κ} {v v' : View ι} {r : ι} {lim : Limits} {o : Op ι κ} {input : Input}
  {b : o.Res}

omit [DecidableEq ι] in
theorem same (h : Pins own sh v) (hsame : SameRequests sh sh') : Pins own sh' v := by
  have hstate (r : ι) : (sh'.heap r).state = (sh.heap r).state := by
    obtain ⟨bit, hheap⟩ := hsame.heap r
    rw [hheap]
  exact
    {
      cancelRefs_eq := by simpa only [hstate, hsame.app, hsame.cancelRefs] using h.cancelRefs_eq
      callbackRefs_eq := by simpa only [hsame.app, hsame.callbackRefs] using h.callbackRefs_eq
      pinOk := by simpa only [hsame.app] using h.pinOk
      notOpened := by simpa only [hsame.app] using h.notOpened
      callbackQuiescing := by simpa only [hsame.callbackQuiescing] using h.callbackQuiescing
      unpinned := by simpa only [hsame.app] using h.unpinned
      pinsIdle := by simpa only [hsame.cancelRefs] using h.pinsIdle
      point := h.point
    }

omit [DecidableEq ι] in
/-- No result is staged and none is being published when `sdo_cancel_refs` is zero. -/
theorem cancelWeight_eq_zero (h : Pins own sh v) (hrefs : sh.sdoCancelRefs = 0) (r : ι)
    : (sh.heap r).state.staged = false ∧ (sh.app r).publishing = none := by
  have hnonneg (r : ι) : 0 ≤ cancelWeight (sh.heap r).state (sh.app r) := by
    unfold cancelWeight
    split <;> split <;> omega
  have hle := le_total hnonneg r
  have hstage : 0 ≤ own.pinStage.weight := by cases own.pinStage <;> simp [PinStage.weight]
  have htotal := h.cancelRefs_eq
  have hzero : cancelWeight (sh.heap r).state (sh.app r) ≤ 0 := by omega
  unfold cancelWeight at hzero
  constructor
  . by_contra hstaged
    rw [if_pos (by simpa using hstaged)] at hzero
    split at hzero <;> omega
  . by_contra hpublishing
    rw [← ne_eq, ← Option.isSome_iff_ne_none] at hpublishing
    rw [if_pos hpublishing] at hzero
    split at hzero <;> omega

variable [DecidableEq κ] {eff : Effect ι κ} {pc : AppPc} {request : Request ι}
  {evs : List ReqEvent}

theorem app (h : Pins own sh v) (hrequests : Requests own sh v)
    (hm : AppMove cfg r sh (sh.app r) (sh.heap r) eff pc request evs)
    : Pins own ((eff.apply cfg r sh).settle r pc request evs) v := by
  obtain ⟨hheap, _, happ, _, hquiescing, _⟩ := Effect.apply_same cfg r sh eff
  have hadmits := (hrequests r).pc_admits
  have hself := hm.cancelWeight hadmits
  have hcallback := hm.callbackWeight (h.pinOk r)
  have hother (r' : ι) (hne : r' ≠ r)
      : ((eff.apply cfg r sh).settle r pc request evs).heap r' = sh.heap r'
        ∧ ((eff.apply cfg r sh).settle r pc request evs).app r' = sh.app r' := by
    simp [Shared.settle, hheap, happ, hne]
  have hcancelRefs : ((eff.apply cfg r sh).settle r pc request evs).sdoCancelRefs
      = sh.sdoCancelRefs + eff.cancelDiff := eff.apply_cancelRefs cfg r sh
  have hcallbackRefs : ((eff.apply cfg r sh).settle r pc request evs).callbackRefs
      = sh.callbackRefs + eff.callbackDiff := eff.apply_callbackRefs cfg r sh
  constructor
  case cancelRefs_eq =>
    rw [total_change r (fun r' hne => by rw [(hother r' hne).1, (hother r' hne).2]), hcancelRefs,
      h.cancelRefs_eq, Shared.settle_heap_self, Shared.settle_app_self, hself]
    omega
  case callbackRefs_eq =>
    intro hreset
    rw [total_change r (fun r' hne => by rw [(hother r' hne).2]), hcallbackRefs,
      h.callbackRefs_eq hreset, Shared.settle_app_self, hcallback]
    omega
  case pinOk =>
    intro r'
    by_cases heq : r' = r
    . subst heq
      simpa using hm.pinOk (h.pinOk r')
    . rw [(hother r' heq).2]
      exact h.pinOk r'
  case notOpened =>
    intro hopened r'
    obtain ⟨haway, hcanceling⟩ := h.notOpened hopened r'
    refine ⟨haway, ?_⟩
    by_cases heq : r' = r
    . subst heq
      rw [Shared.settle_app_self]
      by_contra hnow
      have hplace := (hrequests r').place_admits
      obtain hst | hst := hm.canceling hcanceling (by simpa using hnow)
        <;> simp [haway, hst, Place.admits, ReqState.terminal, ReqState.staged] at hplace
    . rw [(hother r' heq).2]
      exact hcanceling
  case callbackQuiescing =>
    intro hnow
    apply h.callbackQuiescing
    rwa [← hquiescing]
  case unpinned =>
    intro r' ctx hkind hpin hpc
    by_cases heq : r' = r
    . subst heq
      rw [Shared.settle_app_self] at hpc
      obtain ⟨hclosed, hcanceling⟩ | hundo := hm.unpinned (h.pinOk r') hkind hpin hpc
      . apply (h.callbackQuiescing hclosed).resolve_right
        intro hopened
        simp [(h.notOpened hopened r').2] at hcanceling
      . exact h.unpinned r' ctx hkind hpin (.inr hundo)
    . rw [(hother r' heq).2] at hpc
      exact h.unpinned r' ctx hkind hpin hpc
  case pinsIdle =>
    intro hidle
    obtain ⟨hdrained, hstage, haway, hrefs⟩ := h.pinsIdle hidle
    refine ⟨hdrained, hstage, haway, ?_⟩
    have hpublishing := (h.cancelWeight_eq_zero hrefs r).2
    rw [hcancelRefs, hrefs, hm.cancelDiff hpublishing]
    rfl
  case point => exact h.point

omit [DecidableEq ι] [DecidableEq κ] in
/-- The owner takes a step that leaves `callback_refs` and its own progress alone. -/
theorem update (h : Pins own sh v) (happ : sh'.app = sh.app)
    (hcancel : sh'.sdoCancelRefs
      = (total fun r => cancelWeight (sh'.heap r).state (sh'.app r)) + own'.pinStage.weight)
    (hcallback : sh'.callbackRefs = sh.callbackRefs
      ∧ sh'.callbackQuiescing = sh.callbackQuiescing)
    (hpoint : own'.point = own.point)
    (hopened : v'.phase.reset = v.phase.reset ∧ v'.phase.opened = v.phase.opened)
    (hclosing : v.phase.closing = true → v'.phase.closing = true)
    (hidle : v.phase.idle = true → v'.phase.idle = true)
    (hdrained : v.phase.drained = true → v'.phase.drained = true)
    (hpinsIdle : v'.phase.pinsIdle = v.phase.pinsIdle)
    (hplace : ∀ r, v'.place r ≠ .away → v.place r ≠ .away
      ∨ v.phase.opened = true ∧ v.phase.drained = false)
    (hpins : v.phase.pinsIdle = true → own'.pinStage = own.pinStage
      ∧ sh'.sdoCancelRefs = sh.sdoCancelRefs)
    : Pins own' sh' v' where
  cancelRefs_eq := hcancel
  callbackRefs_eq := by
    rw [happ, hcallback.1, hopened.1]
    exact h.callbackRefs_eq
  pinOk := by
    rw [happ]
    exact h.pinOk
  notOpened := by
    rw [happ, hopened.2]
    intro hclosed r
    obtain ⟨haway, hcanceling⟩ := h.notOpened hclosed r
    refine ⟨?_, hcanceling⟩
    by_contra hheld
    obtain hheld | ⟨hopened, _⟩ := hplace r hheld
    . exact hheld haway
    . simp [hclosed] at hopened
  callbackQuiescing := by
    rw [hcallback.2, hopened.2]
    exact fun hquiescing => (h.callbackQuiescing hquiescing).imp_left hclosing
  unpinned := by
    rw [happ]
    exact fun r ctx hkind hpin hpc => hclosing (h.unpinned r ctx hkind hpin hpc)
  pinsIdle := by
    rw [hpinsIdle]
    intro hnow
    obtain ⟨hempty, hstage, haway, hrefs⟩ := h.pinsIdle hnow
    rw [(hpins hnow).1, (hpins hnow).2]
    refine ⟨hdrained hempty, hstage, ?_, hrefs⟩
    intro r
    by_contra hheld
    obtain hheld | ⟨_, hnot⟩ := hplace r hheld
    . exact hheld (haway r)
    . simp [hempty] at hnot
  point := by
    rw [hpoint, hpinsIdle]
    exact ⟨fun hp => hidle (h.point.1 hp), fun hp => hdrained (h.point.2.1 hp), h.point.2.2⟩

theorem place_of_held [Fintype κ] (hghost : Ghost cfg lim o own sh b v v')
    (hexec : o.run input own sh = (b, own', sh')) (hlists : Lists cfg own sh v)
    (hcommands : Commands cfg own sh v) (hheld : v'.place r ≠ .away)
    : v.place r ≠ .away ∨ v.phase.opened = true ∧ v.phase.drained = false := by
  obtain ⟨hheld, _⟩ | ⟨by_, rfl, hb, hopened, _⟩ := hghost.held hlists hheld
  . exact .inl hheld
  . refine .inr ⟨hopened, ?_⟩
    by_contra hdrained
    cases hb
    obtain ⟨entry, rest, hqueue, _⟩ := run_mqReceive_some hexec
    simp [hcommands.queue_eq_nil (.inr (by simpa using hdrained))] at hqueue

omit [DecidableEq κ] in
/-- A step that stages nothing and touches no counter. -/
theorem frame (h : Pins own sh v) (hexec : o.run input own sh = (b, own', sh')) (ho : o.keepsPins)
    (hopened : v'.phase.reset = v.phase.reset ∧ v'.phase.opened = v.phase.opened)
    (hclosing : v.phase.closing = true → v'.phase.closing = true)
    (hidle : v.phase.idle = true → v'.phase.idle = true)
    (hdrained : v.phase.drained = true → v'.phase.drained = true)
    (hpinsIdle : v'.phase.pinsIdle = v.phase.pinsIdle)
    (hplace : ∀ r, v'.place r ≠ .away → v.place r ≠ .away
      ∨ v.phase.opened = true ∧ v.phase.drained = false)
    : Pins own' sh' v' := by
  have hthreads := run_threads (o := o) input own sh
  have hpins := run_pins input own sh ho
  have hstate := run_state input own sh (o := o)
    (by rintro r expected desired rfl; simp [Op.keepsPins] at ho)
  simp only [hexec] at hthreads hpins hstate
  obtain ⟨hstage, hpoint, hcancel, hcallback⟩ := hpins
  apply h.update hthreads.1 _ hcallback hpoint hopened hclosing hidle hdrained hpinsIdle hplace
    (fun _ => ⟨hstage, hcancel⟩)
  simp only [hcancel, hstate, hthreads.1, hstage]
  exact h.cancelRefs_eq

omit [DecidableEq κ] in
/-- The weights after a compare-exchange of a request that the owner holds. -/
theorem cas_weight (hrequests : Requests own sh v) {expected desired : ReqState}
    (hexec : (Op.casState r expected desired).run input own sh
      = ((none : Option ReqState), own', sh')) (hheld : v.place r ≠ .away)
    : sh'.app = sh.app ∧ sh'.sdoCancelRefs = sh.sdoCancelRefs
      ∧ (sh'.callbackRefs = sh.callbackRefs ∧ sh'.callbackQuiescing = sh.callbackQuiescing)
      ∧ (total fun r => cancelWeight (sh'.heap r).state (sh'.app r))
        = (total fun r => cancelWeight (sh.heap r).state (sh.app r))
          + if desired.staged then 1 else 0 := by
  obtain ⟨hst, _, rfl⟩ := run_casState_none hexec
  have hstaged : (sh.heap r).state.staged = false := by
    by_contra hstaged
    exact hheld (Place.away_of_admits (hrequests r).place_admits (.inr (by simpa using hstaged)))
  have heq : ∃ evs, (if desired = .done then (sh.setState r desired).note r (.setDone .owner)
      else sh.setState r desired)
        = sh.settle r (sh.app r) { sh.heap r with state := desired } evs := by
    split
    . exact ⟨_, by rw [Shared.setState, Shared.modify_eq, Shared.note_eq, Shared.settle_settle,
        Shared.settle_app_self, Shared.settle_heap_self]⟩
    . exact ⟨_, by rw [Shared.setState, Shared.modify_eq]⟩
  obtain ⟨evs, heq⟩ := heq
  rw [heq]
  refine ⟨by simp [Shared.settle], rfl, ⟨rfl, rfl⟩, ?_⟩
  have hother (r' : ι) (hne : r' ≠ r)
      : cancelWeight ((sh.settle r (sh.app r) { sh.heap r with state := desired } evs).heap r').state
          ((sh.settle r (sh.app r) { sh.heap r with state := desired } evs).app r')
        = cancelWeight (sh.heap r').state (sh.app r') := by
    simp [Shared.settle, hne]
  rw [total_change r hother]
  simp only [Shared.settle, Function.update_self, cancelWeight, hstaged, Bool.false_eq_true,
    ↓reduceIte]
  omega

omit [DecidableEq κ] in
theorem claim (h : Pins own sh v) (hrequests : Requests own sh v) {expected desired : ReqState}
    (hexec : (Op.casState r expected desired).run input own sh
      = ((none : Option ReqState), own', sh')) (hheld : v.place r ≠ .away)
    (hdesired : desired.staged = false) (hphase : v'.phase = v.phase)
    (hplace : ∀ r, v'.place r ≠ .away → v.place r ≠ .away
      ∨ v.phase.opened = true ∧ v.phase.drained = false)
    : Pins own' sh' v' := by
  obtain ⟨happ, hcancel, hcallback, hweight⟩ := cas_weight hrequests hexec hheld
  obtain ⟨_, rfl, _⟩ := run_casState_none hexec
  simp only [hdesired, Bool.false_eq_true, ↓reduceIte, Int.add_zero] at *
  apply h.update happ _ hcallback rfl _ _ _ _ _ hplace (fun _ => ⟨rfl, hcancel⟩)
  . rw [hcancel, hweight]
    exact h.cancelRefs_eq
  all_goals simp [hphase]

omit [DecidableEq κ] in
theorem claimFailed (h : Pins own sh v) {expected desired st : ReqState}
    (hexec : (Op.casState r expected desired).run input own sh
      = ((some st : Option ReqState), own', sh'))
    (hdesired : desired.staged = false) (hphase : v'.phase = v.phase)
    (hplace : ∀ r, v'.place r ≠ .away → v.place r ≠ .away
      ∨ v.phase.opened = true ∧ v.phase.drained = false)
    : Pins own' sh' v' := by
  obtain ⟨_, _, rfl, rfl⟩ := run_casState_some hexec
  simp only [hdesired, Bool.false_eq_true, ↓reduceIte]
  apply h.update rfl h.cancelRefs_eq ⟨rfl, rfl⟩ rfl _ _ _ _ _ hplace (fun _ => ⟨rfl, rfl⟩)
  all_goals simp [hphase]

theorem exec [Fintype κ] (h : Pins own sh v) (hexec : o.run input own sh = (b, own', sh'))
    (hghost : Ghost cfg lim o own sh b v v') (hrequests : Requests own sh v)
    (hlists : Lists cfg own sh v) (hcommands : Commands cfg own sh v) : Pins own' sh' v' := by
  have hplace (r : ι) (hheld : v'.place r ≠ .away)
      : v.place r ≠ .away ∨ v.phase.opened = true ∧ v.phase.drained = false :=
    place_of_held hghost hexec hlists hcommands hheld
  cases hghost with
  | claimPending hfresh | claimActive hfresh | claimDoomed hfresh | claimTeardown hfresh
  | promote _ hfresh | publish hfresh =>
    exact h.claim hrequests hexec (by simp [hfresh]) rfl rfl hplace
  | claimFailed _ hdesired => exact h.claimFailed hexec hdesired rfl hplace
  | promoteFailed | publishFailed => exact h.claimFailed hexec rfl rfl hplace
  | stage pin hending hstage =>
    obtain ⟨happ, hcancel, hcallback, hweight⟩ := cas_weight hrequests hexec (by simp [hending])
    obtain ⟨_, rfl, _⟩ := run_casState_none hexec
    have hstaged : pin.staged.staged := pin.staged_staged
    rw [if_pos hstaged] at *
    refine h.update happ ?_ hcallback rfl ⟨rfl, rfl⟩ id id id rfl hplace ?_
    . have hold := h.cancelRefs_eq
      simp only [hstage, PinStage.weight] at hold ⊢
      omega
    . intro hidle
      simp [(h.pinsIdle hidle).2.1] at hstage
  | stageFailed pin hending hstage =>
    obtain ⟨_, _, rfl, rfl⟩ := run_casState_some hexec
    rw [if_pos pin.staged_staged]
    refine h.update rfl ?_ ⟨rfl, rfl⟩ rfl ⟨rfl, rfl⟩ id id id rfl hplace ?_
    . have hold := h.cancelRefs_eq
      simpa only [hstage, PinStage.weight] using hold
    . intro hidle
      simp [(h.pinsIdle hidle).2.1] at hstage
  | @pin r _ _ _ _ kind hending hstage =>
    cases hexec
    refine h.update rfl ?_ ⟨rfl, rfl⟩ rfl ⟨rfl, rfl⟩ id id id rfl hplace ?_
    . have hold := h.cancelRefs_eq
      simp only [hstage, PinStage.weight, ↓reduceIte] at hold ⊢
      omega
    . intro hidle
      simp [(h.pinsIdle hidle).2.2.1 r] at hending
  | unpin hstage =>
    cases hexec
    refine h.update rfl ?_ ⟨rfl, rfl⟩ rfl ⟨rfl, rfl⟩ id id id rfl hplace ?_
    . have hold := h.cancelRefs_eq
      simp only [hstage, PinStage.weight] at hold
      simp only [show ¬(-1 : Int) = 1 by decide, ↓reduceIte, PinStage.weight]
      omega
    . intro hidle
      simp [(h.pinsIdle hidle).2.1] at hstage
  | resetCallbacks hopened =>
    cases hexec
    refine { h with callbackRefs_eq := ?_ }
    intro _
    have hnone : ∀ r, callbackWeight (sh.app r) = (fun _ => 0 : ι → Int) r := by
      intro r
      have hcanceling := (h.notOpened hopened r).2
      cases hpc : sh.app r <;> simp_all [callbackWeight, AppPc.holdsCallback, AppPc.canceling]
    rw [total_congr hnone]
    simp [total]
  | openCallbacks hreset =>
    cases hexec
    exact { h with notOpened := by simp, callbackQuiescing := by simp }
  | closeCallbacks hclosing =>
    cases hexec
    exact { h with callbackQuiescing := fun _ => .inl hclosing }
  | cancelsIdle hdrained haway =>
    obtain ⟨hrefs, rfl, rfl⟩ := run_loadCancelRefs hexec
    have hstage : own.pinStage = .none := by
      have hnonneg (r : ι) : 0 ≤ cancelWeight (sh.heap r).state (sh.app r) := by
        unfold cancelWeight
        split <;> split <;> omega
      have htotal := total_nonneg hnonneg
      have hold := h.cancelRefs_eq
      cases hst : own.pinStage <;> simp_all [PinStage.weight] <;> omega
    exact
      {
        h with
          pinsIdle := fun _ => ⟨hdrained, hstage, haway, hrefs⟩
          point := ⟨h.point.1, h.point.2.1, fun _ => rfl⟩
      }
  | mark hidle hdrained hpins =>
    cases hexec
    exact { h with point := ⟨hidle, hdrained, hpins⟩ }
  | look hlooks =>
    obtain ⟨rfl, rfl⟩ := run_looks hexec hlooks
    exact h
  | latch => exact h.frame hexec rfl ⟨rfl, rfl⟩ (fun _ => rfl) id id rfl hplace
  | commandsIdle => exact h.frame hexec rfl ⟨rfl, rfl⟩ id (fun _ => rfl) id rfl hplace
  | noQueue | emptyQueue => exact h.frame hexec rfl ⟨rfl, rfl⟩ id id (fun _ => rfl) rfl hplace
  | _ => exact h.frame hexec rfl ⟨rfl, rfl⟩ id id id rfl hplace

end Pins

end LelyRtt
