import LelyRtt.Protocol.App

/-!
This module contains the proof that the steps of an application thread follow the protocol of its
request.
-/

namespace LelyRtt

variable {ι κ : Type} [DecidableEq ι] [DecidableEq κ]

/-- What a step of a post says about the program point before it. -/
def PostPc.after (pc : PostPc) : PostPc ⊕ RtErr → Bool
  | .inl next => next.sent = (pc.sent || (pc = .send && next = .event))
  | .inr .ok => pc = .release .ok
  | .inr _ => !pc.sent

theorem commandPostStep_after (cfg : BuildConfig) (tid : Tid ι κ) (command : Command ι κ)
    (pc : PostPc) (sh : Shared ι κ) : pc.after (commandPostStep cfg tid command pc sh).1 := by
  fun_cases commandPostStep cfg tid command pc sh <;> simp_all [PostPc.after, PostPc.sent]
  next err => cases err <;> simp

theorem AppPc.retrying_cases {pc : AppPc} (h : pc.retrying)
    : pc = .cancelLoad ∨ (∃ kind, pc = .cancelPin kind) ∨ pc = .cancelQueued := by
  cases pc <;> simp_all [AppPc.retrying]

theorem cancelNext_inl {st : ReqState} {next : AppPc} (h : cancelNext st = .inl next)
    : st = .queued ∧ next = .cancelQueued ∨ ∃ kind : PinKind, st = kind.base ∧ next = .cancelPin kind := by
  cases st <;> simp_all [cancelNext, PinKind.base]
  . exact ⟨.pending, rfl, h.symm⟩
  . exact ⟨.active, rfl, h.symm⟩

namespace Place

variable {place : Place} {kind : PinKind} {st : ReqState}

theorem admits_pinned (h : place.admits kind.base) : place.admits kind.pinned := by
  cases place with
  | ending e _ _ => cases e <;> cases kind <;> simp_all [admits, PinKind.base, PinKind.pinned]
  | _ =>
    cases kind <;> simp_all [admits, PinKind.base, PinKind.pinned, ReqState.terminal,
      ReqState.staged]

theorem admits_released (admitted : Bool) (h : place.admits kind.pinned)
    : place.admits (releasedState kind admitted) := by
  cases place with
  | ending e _ _ =>
    cases e <;> cases kind <;> cases admitted
      <;> simp_all [admits, PinKind.base, PinKind.pinned, releasedState]
  | _ =>
    cases kind <;> cases admitted
      <;> simp_all [admits, PinKind.base, PinKind.pinned, releasedState, ReqState.terminal,
        ReqState.staged]

theorem admits_cancelPending (h : place.admits .queued) : place.admits .cancelPending := by
  cases place with
  | ending e _ _ => cases e <;> simp_all [admits]
  | _ => simp_all [admits]

theorem away_of_admits (h : place.admits st) (hst : st = .new ∨ st.staged) : place = .away := by
  cases place with
  | ending e _ _ => cases e <;> cases st <;> simp_all [admits, ReqState.staged]
  | _ => cases st <;> simp_all [admits, ReqState.staged]

theorem published_of_admits (h : place.admits .done) (hheld : place ≠ .away)
    : ∃ sent, place = .published sent := by
  cases place with
  | ending e _ _ => cases e <;> simp [admits] at h
  | _ => simp_all [admits]

end Place

variable {cfg : BuildConfig} {r : ι} {sh : Shared ι κ} {place : Place} {pc pc' : AppPc}
  {request request' : Request ι} {eff : Effect ι κ} {evs hist : List ReqEvent}
  {queued queued' started : Prop}

namespace PinKind

@[simp]
theorem pinned_pinned (kind : PinKind) : kind.pinned.pinned := by
  cases kind <;> rfl

@[simp]
theorem staged_staged (kind : PinKind) : kind.staged.staged := by
  cases kind <;> rfl

@[simp]
theorem pinned_inj (kind kind' : PinKind) : kind.pinned = kind'.pinned ↔ kind = kind' := by
  cases kind <;> cases kind' <;> decide

variable (kind : PinKind) (admitted : Bool)

theorem releasedState_ne_done : releasedState kind admitted ≠ .done := by
  cases kind <;> cases admitted <;> decide

theorem releasedState_ne_new : releasedState kind admitted ≠ .new := by
  cases kind <;> cases admitted <;> decide

theorem releasedState_ne_staged : releasedState kind admitted ≠ .pendingCancelDone := by
  cases kind <;> cases admitted <;> decide

end PinKind

theorem releasedState_cases (kind : PinKind) (err : RtErr)
    : kind = .pending ∧ err = .ok ∧ releasedState kind (err = .ok) = .cancelPending
      ∨ (kind = .pending → err ≠ .ok) ∧ releasedState kind (err = .ok) = kind.base := by
  by_cases hkind : kind = .pending <;> by_cases herr : err = .ok
    <;> simp [releasedState, hkind, herr]

namespace ReqOk

omit [DecidableEq ι] in
theorem possible (h : ReqOk place pc request hist queued started) : pc.Possible request where
  ident := by
    intro kind heq
    have hst : request.state = kind.pinned ∨ request.state = kind.staged := by
      simpa [heq, AppPc.admits] using h.pc_admits
    apply (h.filled (.inl _)).1
    cases kind <;> obtain hst | hst := hst <;> rw [hst] <;> decide
  unpin := by
    intro ctx err heq
    simpa [heq, AppPc.admits] using h.pc_admits
  unpinDone := by
    intro ctx err heq
    simpa [heq, AppPc.admits] using h.pc_admits
  unpinSub := by
    intro ctx err heq
    exact (h.ctx_eq ctx (by simp [heq, AppPc.ctx?])).1

omit [DecidableEq ι] in
theorem held_of_pinned (h : ReqOk place pc request hist queued started)
    (hpinned : request.state.pinned) : place ≠ .away := by
  have hplace := h.place_admits
  rintro rfl
  cases hst : request.state <;> rw [hst] at hpinned hplace <;> revert hpinned hplace <;> decide

section

variable (h : ReqOk place pc request hist queued started)
  (hm : AppMove cfg r sh pc request eff pc' request' evs)
include h hm

theorem move_pc_admits : pc'.admits request'.state := by
  have hpc := h.pc_admits
  cases hm with
  | @command _ old _ hres =>
    have hafter := commandPostStep_after cfg (.app r) (.sdo r) old sh
    rw [hres] at hafter
    simp [PostPc.after, AppPc.admits] at *
    grind [PostPc.sent, ReqState.pinned, ReqState.staged]
  | @commandOk _ old hres =>
    have hafter := commandPostStep_after cfg (.app r) (.sdo r) old sh
    rw [hres] at hafter
    simp_all [PostPc.after, PostPc.sent, AppPc.admits]
  | @commandFailed _ old err hres hok =>
    have hafter := commandPostStep_after cfg (.app r) (.sdo r) old sh
    rw [hres] at hafter
    cases err <;> simp_all [PostPc.after, AppPc.admits]
  | cancelNext hretry hnext =>
    obtain rfl | ⟨_, rfl⟩ | rfl := AppPc.retrying_cases hretry
      <;> obtain ⟨_, rfl⟩ | ⟨_, _, rfl⟩ := cancelNext_inl hnext
      <;> exact hpc
  | cancelRet hretry _ => obtain rfl | ⟨_, rfl⟩ | rfl := AppPc.retrying_cases hretry <;> exact hpc
  | @unpin _ ctx err | @unpinRet _ ctx err =>
    obtain ⟨_, _, heq⟩ | ⟨_, heq⟩ := releasedState_cases ctx.kind err
      <;> simp only [heq]
      <;> cases ctx.kind <;> rfl
  | _ =>
    simp_all [AppPc.admits, PostPc.sent, ReqState.pinned, ReqState.staged, Request.clear,
      PostArgs.fill]

theorem move_place_admits : place.admits request'.state := by
  have hplace := h.place_admits
  cases hm with
  | postQueued =>
    have haway := Place.away_of_admits hplace (.inl (by simpa [AppPc.admits] using h.pc_admits))
    simp [haway, Place.admits]
  | postNew =>
    have haway := h.alone_away (by simp [AppPc.alone, AppPc.unsent])
    simp [haway, Place.admits]
  | pin hbase => exact Place.admits_pinned (hbase ▸ hplace)
  | cancelQueued hqueued => exact Place.admits_cancelPending (hqueued ▸ hplace)
  | unpinWake hpinned hkind =>
    have hreleased := Place.admits_released false (hpinned ▸ hplace)
    simpa [releasedState, hkind, PinKind.base] using hreleased
  | unpin hpinned => exact Place.admits_released _ (hpinned ▸ hplace)
  | unpinRet hpinned => exact Place.admits_released _ (hpinned ▸ hplace)
  | @unpinDone _ ctx _ hstaged =>
    have haway := Place.away_of_admits hplace (.inr (by rw [hstaged]; cases ctx.kind <;> rfl))
    simp [haway, Place.admits, ReqState.terminal]
  | _ => exact hplace

theorem move_args_valid : ∀ args, pc'.args? = some args → args.valid := by
  have hargs := h.args_valid
  cases hm with
  | cancelNext _ hnext =>
    obtain ⟨_, rfl⟩ | ⟨_, _, rfl⟩ := cancelNext_inl hnext <;> simp [AppPc.args?]
  | _ => simp_all [AppPc.args?]

theorem move_ctx_eq : ∀ ctx, pc'.ctx? = some ctx → ctx.runtime = true
    ∧ ctx.nodeId = request'.nodeId ∧ ctx.requestId = request'.requestId := by
  have hctx := h.ctx_eq
  cases hm with
  | cancelNext _ hnext =>
    obtain ⟨_, rfl⟩ | ⟨_, _, rfl⟩ := cancelNext_inl hnext <;> simp [AppPc.ctx?]
  | @unpinRead _ ctx _ =>
    have hruntime : request.runtime = true := by
      apply (h.filled (.inl _)).1
      have hpc := h.pc_admits
      simp only [AppPc.admits, decide_eq_true_eq] at hpc
      rw [hpc]
      cases ctx.kind <;> simp [PinKind.staged]
    simp_all [AppPc.ctx?]
  | _ => simp_all [AppPc.ctx?]

theorem move_filled (hst : request'.state ≠ .new ∧ request'.state ≠ .done ∨ pc' = .postQueued)
    : request'.runtime = true ∧ request'.nodeId ≠ 0 ∧ request'.nodeId ≤ numNodes := by
  have hfilled := h.filled
  cases hm with
  | postFill =>
    have hargs := h.args_valid _ rfl
    simp [PostArgs.valid] at hargs
    simp [PostArgs.fill, hargs]
  | postQueued => exact hfilled (.inr rfl)
  | postClear =>
    have hpc := h.pc_admits
    simp [AppPc.admits] at hpc
    simp [Request.clear, hpc.1] at hst
  | cancelNext _ hnext =>
    obtain ⟨_, rfl⟩ | ⟨_, _, rfl⟩ := cancelNext_inl hnext <;> simp_all
  | @pin _ kind hbase => exact hfilled (.inl (by rw [hbase]; cases kind <;> decide))
  | @unpinWake _ ctx _ hpinned | @unpin _ ctx _ hpinned | @unpinRet _ ctx _ hpinned =>
    exact hfilled (.inl (by rw [hpinned]; cases ctx.kind <;> decide))
  | _ => simp_all

/-- A request that the owner holds keeps everything but its state and its event. -/
theorem move_held (hheld : place ≠ .away)
    : request'.nodeId = request.nodeId ∧ request'.requestId = request.requestId
      ∧ request'.runtime = request.runtime ∧ request'.next = request.next
      ∧ request'.completionRefs = request.completionRefs := by
  have hpc := h.pc_admits
  have hnew : request.state ≠ .new := fun hst => hheld (Place.away_of_admits h.place_admits (.inl hst))
  have hstaged (kind : PinKind) : request.state ≠ kind.staged := by
    intro hst
    apply hheld
    apply Place.away_of_admits h.place_admits
    cases kind <;> simp [hst, PinKind.staged, ReqState.staged]
  cases hm with
  | postFill => simp [AppPc.admits, hnew] at hpc
  | postClear => simp [AppPc.admits, hnew] at hpc
  | unpinHold => simp [AppPc.admits, hstaged] at hpc
  | unpinClear => exact absurd (h.alone_away rfl) hheld
  | _ => simp

theorem move_node_eq : ∀ node, place.node? = some node → request'.nodeId = node := by
  intro node hnode
  have hheld : place ≠ .away := by
    intro heq
    simp [heq, Place.node?] at hnode
  rw [(h.move_held hm hheld).1]
  exact h.node_eq node hnode

theorem move_refs_eq (hrefs : place.holdsRefs) : request'.completionRefs = 1 := by
  have hheld : place ≠ .away := by
    intro heq
    simp [heq, Place.holdsRefs] at hrefs
  rw [(h.move_held hm hheld).2.2.2.2]
  exact h.refs_eq hrefs

theorem move_next_eq (node : Nat) (hplace : place = .joining node true)
    : request'.next = none := by
  have hheld : place ≠ .away := by simp [hplace]
  rw [(h.move_held hm hheld).2.2.2.1]
  exact h.next_eq node hplace

theorem move_alone_away (halone : pc'.alone) : place = .away := by
  have hpc := h.pc_admits
  have hplace := h.place_admits
  cases hm with
  | postQueued => exact Place.away_of_admits hplace (.inl (by simpa [AppPc.admits] using hpc))
  | @command _ old _ hres =>
    apply h.alone_away
    have hafter := commandPostStep_after cfg (.app r) (.sdo r) old sh
    rw [hres] at hafter
    simp_all [PostPc.after, AppPc.alone, AppPc.unsent, AppPc.publishing]
  | @commandFailed _ old err hres hok =>
    apply h.alone_away
    have hafter := commandPostStep_after cfg (.app r) (.sdo r) old sh
    rw [hres] at hafter
    cases err <;> simp_all [PostPc.after, AppPc.alone, AppPc.unsent]
  | cancelNext _ hnext =>
    obtain ⟨_, rfl⟩ | ⟨_, _, rfl⟩ := cancelNext_inl hnext
      <;> simp [AppPc.alone, AppPc.unsent, AppPc.publishing] at halone
  | @unpinDone _ ctx _ hstaged =>
    exact Place.away_of_admits hplace (.inr (by rw [hstaged]; cases ctx.kind <;> rfl))
  | unpinSend => exact h.alone_away rfl
  | unpinClear => exact h.alone_away rfl
  | destroyRefs hrefs =>
    -- a request that the owner has set `DONE` still holds its completion reference
    by_contra hheld
    have hst : request.state = .new ∨ request.state = .done := by simpa [AppPc.admits] using hpc
    obtain hst | hst := hst
    . exact hheld (Place.away_of_admits hplace (.inl hst))
    . obtain ⟨sent, rfl⟩ := Place.published_of_admits (hst ▸ hplace) hheld
      have hrefs' := h.refs_eq rfl
      omega
  | destroyFree => exact h.alone_away rfl
  | _ => simp [AppPc.alone, AppPc.unsent, AppPc.publishing] at halone

/-- The command enters the queue when the post sends it. -/
theorem move_queued_iff
    (hqueue : queued' ↔ queued ∨ pc = .postCommand .send ∧ pc' = .postCommand .event)
    : queued' ↔ place = .away ∧ (request'.state = .queued ∨ request'.state = .cancelPending)
        ∧ pc'.unsent = false := by
  have hiff := h.queued_iff
  have hpc := h.pc_admits
  have halone := h.alone_away
  rw [hqueue, hiff]
  cases hm with
  | @command _ old next hres =>
    have hafter := commandPostStep_after cfg (.app r) (.sdo r) old sh
    rw [hres] at hafter
    simp [PostPc.after, AppPc.unsent, AppPc.admits, AppPc.alone] at *
    grind [PostPc.sent]
  | @commandOk _ old hres =>
    have hafter := commandPostStep_after cfg (.app r) (.sdo r) old sh
    rw [hres] at hafter
    simp_all [PostPc.after, PostPc.sent, AppPc.unsent]
  | @commandFailed _ old err hres hok =>
    have hafter := commandPostStep_after cfg (.app r) (.sdo r) old sh
    rw [hres] at hafter
    cases err <;> simp_all [PostPc.after, AppPc.unsent]
  | cancelNext hretry hnext =>
    obtain rfl | ⟨_, rfl⟩ | rfl := AppPc.retrying_cases hretry
      <;> obtain ⟨_, rfl⟩ | ⟨_, _, rfl⟩ := cancelNext_inl hnext
      <;> simp [AppPc.unsent]
  | cancelRet hretry _ =>
    obtain rfl | ⟨_, rfl⟩ | rfl := AppPc.retrying_cases hretry <;> simp [AppPc.unsent]
  | @pin _ kind hbase => cases kind <;> simp [hbase, PinKind.base, PinKind.pinned]
  | @unpinWake _ ctx _ hpinned hkind => simp [hpinned, hkind, PinKind.pinned]
  | @unpin _ ctx err hpinned | @unpinRet _ ctx err hpinned =>
    have hheld : place ≠ .away := h.held_of_pinned (hpinned ▸ ctx.kind.pinned_pinned)
    simp [hheld]
  | @unpinDone _ ctx _ hstaged => cases hkind : ctx.kind <;> simp [hstaged, hkind, PinKind.staged]
  | _ => simp_all [AppPc.unsent, AppPc.admits, PostPc.sent, Request.clear, PostArgs.fill]

theorem move_completion_fits : (completion (hist ++ evs)).Fits place pc' request'.state := by
  have hfits := h.completion_fits
  have hpc := h.pc_admits
  cases hm with
  | cancelNext hretry hnext =>
    obtain rfl | ⟨_, rfl⟩ | rfl := AppPc.retrying_cases hretry
      <;> obtain ⟨_, rfl⟩ | ⟨_, _, rfl⟩ := cancelNext_inl hnext
      <;> simpa [Completion.Fits] using hfits
  | cancelRet hretry _ =>
    obtain rfl | ⟨_, rfl⟩ | rfl := AppPc.retrying_cases hretry
      <;> simpa [Completion.Fits] using hfits
  | @unpin _ ctx err hpinned | @unpinRet _ ctx err hpinned | @unpinWake _ ctx err hpinned =>
    have hdone := ctx.kind.releasedState_ne_done (err = .ok)
    have hpinned : request.state ≠ .done := by rw [hpinned]; cases ctx.kind <;> decide
    simp_all [Completion.Fits]
  | @unpinDone _ ctx _ hstaged =>
    have haway := Place.away_of_admits h.place_admits (.inr (hstaged ▸ ctx.kind.staged_staged))
    have hdone : request.state ≠ .done := by rw [hstaged]; cases ctx.kind <;> decide
    simp_all [Completion.Fits, Completion.next]
  | @unpinSend | @unpinClear =>
    have haway := h.alone_away rfl
    simp_all [Completion.Fits, Completion.next, AppPc.admits]
  | @pin _ kind hbase =>
    cases kind <;> simp_all [Completion.Fits, PinKind.base, PinKind.pinned]
  | _ => simp_all [AppPc.admits, Completion.Fits, Completion.next, PostArgs.fill, Request.clear]

theorem move_posted (hposted : .postRet .ok ∈ hist ++ evs)
    : request'.state ≠ .new ∧ pc'.unsent = false := by
  have hold := h.posted
  have hpc := h.pc_admits
  cases hm with
  | @command _ old next hres =>
    have hafter := commandPostStep_after cfg (.app r) (.sdo r) old sh
    rw [hres] at hafter
    simp_all [PostPc.after, AppPc.unsent]
  | @commandOk _ old hres =>
    have hafter := commandPostStep_after cfg (.app r) (.sdo r) old sh
    rw [hres] at hafter
    simp_all [PostPc.after, PostPc.sent, AppPc.unsent, AppPc.admits]
  | @commandFailed _ old err hres hok =>
    have hafter := commandPostStep_after cfg (.app r) (.sdo r) old sh
    rw [hres] at hafter
    cases err <;> simp_all [PostPc.after, AppPc.unsent]
  | cancelNext hretry hnext =>
    obtain ⟨_, rfl⟩ | ⟨_, _, rfl⟩ := cancelNext_inl hnext <;> simp_all [AppPc.unsent]
  | @pin _ kind hbase => cases kind <;> simp_all [AppPc.unsent, PinKind.pinned]
  | @unpin _ ctx err | @unpinRet _ ctx err =>
    have hnew := ctx.kind.releasedState_ne_new (err = .ok)
    simp_all [AppPc.unsent]
  | postBusy herr => simp_all [herr.symm, AppPc.unsent]
  | @postClear _ err =>
    have hne : request.state = .new ∧ err ≠ .ok := by simpa [AppPc.admits] using hpc
    simp_all [hne.2.symm, AppPc.unsent]
  | _ => simp_all [AppPc.admits, AppPc.unsent, PostArgs.fill]

theorem move_ending_canceled (held : Bool) (hplace : place = .ending .pend true held)
    : request'.Canceled := by
  have hold := h.ending_canceled held hplace
  have hpc := h.pc_admits
  have hnew : request.state ≠ .new := by
    intro hst
    have haway := Place.away_of_admits h.place_admits (.inl hst)
    simp [hplace] at haway
  cases hm with
  | postFill => simp [AppPc.admits, hnew] at hpc
  | _ => exact hold

theorem move_staged_canceled (hst : request'.state = .pendingCancelDone) : request'.Canceled := by
  have hold := h.staged_canceled
  have hpc := h.pc_admits
  cases hm with
  | postFill => simp_all [AppPc.admits, PostArgs.fill]
  | @pin _ kind => cases kind <;> simp [PinKind.pinned] at hst
  | @unpin _ ctx err | @unpinRet _ ctx err =>
    exact absurd hst (ctx.kind.releasedState_ne_staged (err = .ok))
  | _ => simp_all [Request.Canceled, Request.clear]

theorem move_publishing_canceled (ctx : CancelCtx) (hpub : pc'.publishing = some ctx)
    (hkind : ctx.kind = .pending) : request'.Canceled ∧ ¬started := by
  have hold := h.publishing_canceled
  have hstaged := h.staged_canceled
  have hstarted := h.started_active
  cases hm with
  | cancelNext _ hnext =>
    obtain ⟨_, rfl⟩ | ⟨_, _, rfl⟩ := cancelNext_inl hnext <;> simp [AppPc.publishing] at hpub
  | _ => simp_all [AppPc.publishing, Request.Canceled, PinKind.staged]

theorem move_early (hearly : canceledEarly (hist ++ evs) ∨ pc'.admitted)
    : (request'.state = .cancelPending ∨ request'.state = .done ∧ request'.Canceled)
      ∧ ¬started := by
  have hold := h.early
  have hstarted := h.started_active
  have hpc := h.pc_admits
  cases hm with
  | cancelNext _ hnext =>
    obtain ⟨_, rfl⟩ | ⟨_, _, rfl⟩ := cancelNext_inl hnext <;> simp_all [AppPc.admitted]
  | @pin _ kind hbase =>
    cases kind <;> simp_all [canceledEarly, AppPc.admitted, PinKind.base]
  | @unpinWake _ ctx err hpinned | @unpin _ ctx err hpinned | @unpinRet _ ctx err hpinned =>
    cases hkind : ctx.kind
      <;> simp_all [canceledEarly, AppPc.admitted, PinKind.base, PinKind.pinned, releasedState]
  | @unpinHold _ ctx | @unpinDone _ ctx =>
    cases hkind : ctx.kind <;> simp_all [canceledEarly, AppPc.admitted, AppPc.admits, PinKind.staged]
  | @unpinSub _ ctx | @unpinSubRet _ ctx =>
    have hpub := h.publishing_canceled ctx rfl
    cases hkind : ctx.kind <;> simp_all [canceledEarly, AppPc.admitted, AppPc.admits, PinKind.base]
  | @callbackRelease _ ctx err =>
    cases hkind : ctx.kind
    next =>
      simp_all [canceledEarly, AppPc.admitted, PinKind.base]
      grind
    next => simp_all [canceledEarly, AppPc.admitted, PinKind.base]
  | _ =>
    simp_all [canceledEarly, AppPc.admitted, AppPc.admits, Request.Canceled, PostArgs.fill,
      Request.clear]

theorem move_started_active (hstarted : started)
    : request'.state = .active ∨ request'.state = .activeCancelPinned
      ∨ request'.state = .activeCancelDone ∨ request'.state = .done := by
  have hold := h.started_active hstarted
  have hpc := h.pc_admits
  cases hm with
  | @pin _ kind hbase => cases kind <;> simp_all [PinKind.base, PinKind.pinned]
  | @unpin _ ctx err hpinned | @unpinRet _ ctx err hpinned =>
    cases hkind : ctx.kind <;> simp_all [PinKind.base, PinKind.pinned, releasedState]
  | _ => simp_all [AppPc.admits, PostArgs.fill, Request.clear, PinKind.pinned]

/-- A step of the application thread keeps the protocol of its request. -/
theorem move (hqueue : queued' ↔ queued ∨ pc = .postCommand .send ∧ pc' = .postCommand .event)
    : ReqOk place pc' request' (hist ++ evs) queued' started where
  place_admits := h.move_place_admits hm
  pc_admits := h.move_pc_admits hm
  args_valid := h.move_args_valid hm
  ctx_eq := h.move_ctx_eq hm
  filled := h.move_filled hm
  node_eq := h.move_node_eq hm
  refs_eq := h.move_refs_eq hm
  next_eq := h.move_next_eq hm
  alone_away := h.move_alone_away hm
  queued_iff := h.move_queued_iff hm hqueue
  completion_fits := h.move_completion_fits hm
  posted := h.move_posted hm
  ending_canceled := h.move_ending_canceled hm
  staged_canceled := h.move_staged_canceled hm
  publishing_canceled := h.move_publishing_canceled hm
  early := h.move_early hm
  started_active := h.move_started_active hm

end

end ReqOk

end LelyRtt
