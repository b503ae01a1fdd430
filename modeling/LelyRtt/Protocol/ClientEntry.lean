import LelyRtt.Protocol.ClientStart

/-!
This module contains the specifications of the rest of the owner's code as far as the Client-SDOs are
concerned: what Lely runs, the dispatch of commands, the cleanup, and the owner loop.
-/

namespace LelyRtt

open Conc

variable {ι κ : Type} [DecidableEq ι] [DecidableEq κ] [Fintype ι] [Fintype κ] {cfg : BuildConfig}
  {own own' own'' : Own ι κ} {m : Mode ι} {r : ι} {node : Nat} {chan : Chan}

/-- The Client-SDOs are in order, and nothing is left to do if nothing was. -/
structure Own.Kept (own own' : Own ι κ) : Prop where
  settled : own'.Settled
  idle : own.Idle → own'.Idle

namespace Own

omit [DecidableEq ι] [DecidableEq κ] [Fintype ι] [Fintype κ]

theorem SameClients.idle (h : own.SameClients own') (hidle : own.Idle) : own'.Idle :=
  fun node => ⟨by rw [h.active, (hidle node).1], by rw [h.stop, (hidle node).2]⟩

theorem SameClients.kept (h : own.SameClients own') (hset : own.Settled) : own.Kept own' :=
  ⟨h.settled hset, h.idle⟩

theorem Kept.refl (hset : own.Settled) : own.Kept own := ⟨hset, id⟩

theorem Kept.trans (h : own.Kept own') (h' : own'.Kept own'') : own.Kept own'' :=
  ⟨h'.settled, fun hidle => h'.idle (h.idle hidle)⟩

theorem Kept.same (h : own.Kept own') (hsame : own'.SameClients own'') : own.Kept own'' :=
  h.trans (hsame.kept h.settled)

end Own

/-- The code keeps the Client-SDOs in order. -/
def Tidy (cfg : BuildConfig) {α : Type} (p : Owner ι κ α) : Prop :=
  ∀ own m, own.Settled → Keeps cfg p own m fun _ own' m' => own.Kept own' ∧ m.Same m'

namespace Tidy

variable {α β : Type} {p : Owner ι κ α} {f : α → Owner ι κ β}

theorem still (hp : Still p) : Tidy cfg p :=
  fun _ _ hset => Keeps.still hp fun _ _ _ hsame hm => ⟨hsame.kept hset, hm⟩

theorem ret (a : α) : Tidy cfg (pure a : Owner ι κ α) :=
  fun _ _ hset => .ret ⟨.refl hset, .refl⟩

theorem bind (hp : Tidy cfg p) (hf : ∀ a, Tidy cfg (f a)) : Tidy cfg (p >>= f) := by
  intro own m hset
  apply Keeps.call (hp own m hset)
  rintro a own₁ m₁ ⟨hkept₁, hm₁⟩
  apply (hf a own₁ m₁ hkept₁.settled).mono
  rintro _ own₂ m₂ ⟨hkept₂, hm₂⟩
  exact ⟨hkept₁.trans hkept₂, hm₁.trans hm₂⟩

theorem op {o : Op ι κ} {f : o.Res → Owner ι κ β} (ho : o.Still) (hf : ∀ b, Tidy cfg (f b))
    : Tidy cfg (exec o >>= f) :=
  bind (still (.exec ho)) hf

theorem ite {c : Prop} [Decidable c] {q : Owner ι κ α} (hp : Tidy cfg p) (hq : Tidy cfg q)
    : Tidy cfg (if c then p else q) := by
  split
  . exact hp
  . exact hq

end Tidy

theorem sdoCancelNode_tidy : Tidy cfg (sdoCancelNode node : Owner ι κ Unit) :=
  fun _ _ hset => (sdoCancelNode_keeps hset).mono fun _ _ _ h => ⟨⟨h.1, h.2.2.1⟩, h.2.2.2⟩

theorem sdoOnNmtState_tidy {state : Nat}
    : Tidy cfg (sdoOnNmtState node state : Owner ι κ Unit) := by
  unfold sdoOnNmtState
  apply Tidy.ite (.ret _)
  have hstate : Tidy cfg (exec (.setMisc fun misc =>
      misc.event (.state node state (misc.masterNmt && misc.booting node))) : Owner ι κ Unit) :=
    .still (.exec fun _ => ⟨rfl, rfl⟩)
  split
  . exact .bind sdoCancelNode_tidy fun _ => hstate
  . exact hstate

theorem cfgDispatch_tidy {c : κ} : Tidy cfg (cfgDispatch c node : Owner ι κ Unit) := by
  unfold cfgDispatch
  apply Tidy.ite (.ret _)
  refine .op trivial fun own => ?_
  refine .ite (.still cfgComplete_still) (.ite (.ret _) ?_)
  refine .op trivial fun accepted => ?_
  refine .ite (.still cfgComplete_still) (.ite (.still cfgComplete_still) ?_)
  refine .bind sdoCancelNode_tidy fun _ => ?_
  refine .op (fun _ => ⟨rfl, rfl⟩) fun _ => .op trivial fun outcome => ?_
  cases outcome with
  | failed => exact .still cfgComplete_still
  | started => exact .ret _
  | confirmed failed =>
    exact .bind (.still cfgComplete_still) fun _ => .ite (.still cfgComplete_still) (.ret _)

theorem commandDispatchNmt_tidy {command : NmtCommand}
    : Tidy cfg (commandDispatchNmt node command : Owner ι κ Unit) := by
  have hrest : Tidy cfg
      (do
        let accepted : Bool ← exec .pick
        if accepted then setGate (.command node command) else pure () : Owner ι κ Unit) :=
    .op trivial fun (_ : Bool) => .ite (.still setGate_still) (.ret _)
  unfold commandDispatchNmt
  refine .op trivial fun own => ?_
  refine .ite (.ret _) ?_
  cases command with
  | start | preop => exact hrest
  | stop | resetNode | resetComm => exact .bind sdoCancelNode_tidy fun _ => hrest

/-- The predefined Client-SDO of a node that was canceled is destroyed. -/
theorem csdoDestroy_tidy (chan : Chan) (own : Own ι κ) (m : Mode ι) (hset : own.Settled)
    (hmanages : ∀ number, chan = .custom number → m.work.manages number)
    (hstop : ∀ node, chan = .predefined node → own.Canceled node)
    : Keeps cfg (csdoDestroy chan) own m fun _ own' m' => own.Kept own' ∧ m.Same m' := by
  apply (csdoDestroy_keeps hset hmanages).mono
  rintro _ own' m' ⟨hclear, hnone, hm, hchannel, hsilent⟩
  refine ⟨⟨?_, fun hidle node => ?_⟩, hm⟩
  . cases chan with
    | custom number => exact hclear.settled_custom
    | predefined node =>
      obtain ⟨hnone', hpending⟩ := hstop node rfl
      apply hclear.settled (.inl hnone)
      rw [(hsilent fun node' hchan => by rw [← chan_eq_predefined hchan, hnone']).2, hpending]
  . obtain ⟨hactive, hstop⟩ := hsilent fun node' _ => (hidle node').1
    exact ⟨by rw [hactive, (hidle node).1], by rw [hstop, (hidle node).2]⟩

theorem sdoBeforeBoot_tidy : Tidy cfg (sdoBeforeBoot node : Owner ι κ Unit) := by
  unfold sdoBeforeBoot
  split
  next => exact .ret _
  next hnode =>
    intro own m hset
    apply Keeps.call (sdoCancelNode_keeps hset)
    rintro _ own₁ m₁ ⟨hset₁, hcanceled, hidle₁, hm₁⟩
    apply Keeps.call (csdoDestroy_tidy (.predefined node) own₁ m₁ hset₁ (by simp) ?_)
    . rintro _ own₂ m₂ ⟨hkept₂, hm₂⟩
      apply (Tidy.still setGate_still own₂ m₂ hkept₂.settled).mono
      rintro _ own₃ m₃ ⟨hkept₃, hm₃⟩
      exact ⟨.trans ⟨hset₁, hidle₁⟩ (.trans hkept₂ hkept₃), hm₁.trans (hm₂.trans hm₃)⟩
    . rintro node' heq
      injection heq with heq
      subst heq
      exact hcanceled (by omega) (by omega)

theorem remoteStateInd_tidy {st : Nat} {boot : BootOutcome}
    : Tidy cfg (remoteStateInd node st boot : Owner ι κ Unit) := by
  have hrest : Tidy cfg
      (do
        nmtOnSt node st boot
        let own : Own ι κ ← exec .own
        if node = own.misc.localId ∨ node = 0 ∨ node > numNodes then
          pure ()
        else if untoggle st = stBootup ∧ own.misc.bootResultValid node then
          pure ()
        else
          sdoOnNmtState node (untoggle st) : Owner ι κ Unit) :=
    .bind (.still nmtOnSt_still) fun _ =>
      .op trivial fun _ => .ite (.ret _) (.ite (.ret _) sdoOnNmtState_tidy)
  unfold remoteStateInd
  refine .op trivial fun own => ?_
  dsimp only
  split
  . exact .op (fun _ => ⟨rfl, rfl⟩) fun _ => .bind sdoBeforeBoot_tidy fun _ => hrest
  . exact hrest

/-- Between two operations the Client-SDOs are in order. -/
theorem Keeps.between {Q : Unit → Own ι κ → Mode ι → Prop} (hset : own.Settled)
    (h : Q () own { m with work := .none, rest := true })
    : Keeps cfg (LelyRtt.exec (.between : Op ι κ)) own m Q := by
  refine Keeps.exec hset ?_
  intro sh input b own' sh' _ _ hrun
  cases hrun
  exact ⟨{ m with work := .none, rest := true }, ⟨rfl, fun _ => rfl, .inl rfl⟩, h⟩

theorem Keeps.work {Q : LelyWork → Own ι κ → Mode ι → Prop}
    (h : ∀ work m', m'.work = work → Q work own m')
    : Keeps cfg (LelyRtt.exec (.work : Op ι κ)) own m Q := by
  refine Keeps.exec (show Op.Guarded own m (.work : Op ι κ) from trivial) ?_
  intro sh input b own' sh' _ _ hrun
  cases hrun
  exact ⟨{ m.busy with work := input.work }, ⟨rfl, by simp [Mode.busy], .inl rfl⟩, h _ _ rfl⟩

omit [DecidableEq ι] [DecidableEq κ] [Fintype ι] [Fintype κ] in
/-- A custom Client-SDO without an application transfer may become anything. -/
theorem Own.Kept.setCustom {number : Nat} {csdo : Option (Csdo ι)} (hset : own.Settled)
    (hfree : ∀ r, own.csdo (.custom number) ≠ some (.busy r))
    : own.Kept { own with csdo := Function.update own.csdo (.custom number) csdo } where
  settled := by
    have hclear : own.Clear (.custom number) := by
      refine .of_settled hset fun node hchan => ?_
      by_contra hactive
      obtain ⟨r, hactive⟩ := Option.ne_none_iff_exists'.mp hactive
      exact hfree r (hchan ▸ ((hset node).active r hactive).1)
    exact (hclear.set (by simp)).settled_custom
  idle hidle := hidle

theorem lelyRun_keeps {work : LelyWork} (hset : own.Settled) (hwork : m.work = work)
    : Keeps cfg (lelyRun work) own m fun _ own' _ => own.Kept own' := by
  have htidy {p : Owner ι κ Unit} (hp : Tidy cfg p)
      : Keeps cfg p own m.busy fun _ own' _ => own.Kept own' :=
    (hp own m.busy hset).mono fun _ _ _ h => h.1
  have hret : Keeps cfg (pure () : Owner ι κ Unit) own m.busy fun _ own' _ => own.Kept own' :=
    .ret (.refl hset)
  have hmanages {number : Nat} (hmanages : work.manages number) : m.busy.work.manages number :=
    hwork ▸ hmanages
  unfold lelyRun
  apply Keeps.bind
  apply Keeps.readOwn
  intro sh hsound
  cases work with
  | none => exact hret
  | confirm chan ac data alloc =>
    dsimp only
    cases hbusy : own.csdo chan with
    | none => exact hret
    | some csdo =>
      cases csdo with
      | stopped | idle | foreign => exact hret
      | busy r =>
        obtain ⟨node, hactive, rfl, _⟩ := hsound.busy hbusy
        apply (confirm_keeps hactive hbusy).mono
        rintro _ own₁ m₁ ⟨hconfirmed, _⟩
        refine ⟨hset.confirmed (fun _ h => hsound.active_inj hactive h) hactive hconfirmed, ?_⟩
        intro hidle
        simp [(hidle node).1] at hactive
  | remoteState => exact htidy (.ite remoteStateInd_tidy (.ret _))
  | bootDone =>
    exact htidy (.ite (.bind (.still setBooting_still) fun _ => .still bootInd_still) (.ret _))
  | cfgDone => exact htidy (.ite (.still cfgCon_still) (.ret _))
  | localState => exact htidy (.ite (.still localStateInd_still) (.ret _))
  | localPreop => exact htidy (.ite (.still localPreop_still) (.ret _))
  | customDestroy number =>
    apply (csdoDestroy_tidy (.custom number) own m.busy hset ?_ (by simp)).mono
    . exact fun _ _ _ h => h.1
    . rintro number' heq
      injection heq with heq
      exact hmanages heq
  | customCreate number =>
    dsimp only
    cases hcsdo : own.csdo (.custom number) with
    | some => exact hret
    | none =>
      refine Keeps.step rfl (.inl (hmanages rfl)) (fun _ _ => rfl) fun _ => ?_
      exact .setCustom hset (by simp [hcsdo])
  | customBegin number =>
    dsimp only
    cases hcsdo : own.csdo (.custom number) with
    | none => exact hret
    | some csdo =>
      cases csdo with
      | stopped | busy | foreign => exact hret
      | idle =>
        refine Keeps.step rfl (.inl (hmanages rfl)) (fun _ _ => rfl) fun _ => ?_
        exact .setCustom hset (by simp [hcsdo])
  | customEnd number =>
    dsimp only
    cases hcsdo : own.csdo (.custom number) with
    | none => exact hret
    | some csdo =>
      cases csdo with
      | stopped | busy | idle => exact hret
      | foreign =>
        refine Keeps.step rfl (.inl (hmanages rfl)) (fun _ _ => rfl) fun _ => ?_
        exact .setCustom hset (by simp [hcsdo])

theorem drainLoop_keeps (hset : own.Settled)
    : Keeps cfg drainLoop own m fun _ own' _ => own.Kept own' := by
  unfold drainLoop
  apply Keeps.loop (fun _ own' _ => own.Kept own') (.refl hset)
  rintro _ own₁ m₁ hkept₁
  apply Keeps.bind
  apply Keeps.between hkept₁.settled
  apply Keeps.bind
  apply Keeps.work
  intro work m₂ hwork
  split
  next => exact .ret hkept₁
  next =>
    apply Keeps.call (lelyRun_keeps hkept₁.settled hwork)
    rintro _ own₂ m₃ hkept₂
    exact .ret (hkept₁.trans hkept₂)

/-- A command is taken out of the queue. The SDO request in it was posted. -/
theorem Keeps.mqReceive {by_ : TakenBy} {Q : Option (Command ι κ) → Own ι κ → Mode ι → Prop}
    (hset : own.Settled) (hrest : m.rest = true)
    (h : ∀ command own' m', own'.Settled →
      (∀ r, command = some (.sdo r) → ∃ node, m'.known = some (r, node)) → Q command own' m')
    : Keeps cfg (LelyRtt.exec (.mqReceive by_ : Op ι κ)) own m Q := by
  refine Keeps.exec hrest ?_
  intro sh input b own' sh' hsound _ hrun
  have hplain (m' : Mode ι) (hm' : m' = m.busy) : m.Next sh (.mqReceive by_ : Op ι κ) b m' :=
    hm' ▸ .busy rfl
  simp only [Op.run] at hrun
  split at hrun
  next =>
    cases hrun
    exact ⟨m.busy, .busy rfl, h _ _ _ hset (by simp)⟩
  next entry rest hqueue =>
    cases hrun
    have hsame : own.SameClients { own with taken := own.taken ++ [(by_, entry)] } :=
      ⟨rfl, rfl, rfl, rfl⟩
    cases hcommand : entry.command with
    | sdo r =>
      obtain ⟨v, hinv⟩ := hsound
      have hsent : r ∈ sh.sent.filterMap (·.command.sdo?) := by
        rw [← hinv.commands.taken_eq]
        simp [hqueue, hcommand, Command.sdo?]
      have hposted : sh.Posted r := hinv.sent.published r hsent
      refine ⟨{ m.busy with known := some (r, (sh.heap r).nodeId) },
        ⟨rfl, by simp [Mode.busy], .inr ⟨r, hposted, rfl⟩⟩, h _ _ _ (hsame.settled hset) ?_⟩
      rintro r' heq
      rw [Option.some_inj, Command.sdo.injEq] at heq
      exact ⟨_, by rw [heq]⟩
    | _ => exact ⟨m.busy, .busy rfl, h _ _ _ (hsame.settled hset) (by simp)⟩

theorem commandExecute_keeps {command : Command ι κ} (hset : own.Settled)
    (hknown : ∀ r, command = .sdo r → ∃ node, m.known = some (r, node))
    : Keeps cfg (commandExecute cfg command) own m fun _ own' _ => own'.Settled := by
  have htidy {p : Owner ι κ Unit} (hp : Tidy cfg p)
      : Keeps cfg p own m fun _ own' _ => own'.Settled :=
    (hp own m hset).mono fun _ _ _ h => h.1.settled
  cases command with
  | nmt => exact htidy commandDispatchNmt_tidy
  | sdo r =>
    obtain ⟨node, hknown⟩ := hknown r rfl
    exact (sdoDispatch_keeps hset hknown).mono fun _ _ _ h => h.1
  | sdoCancel => exact (sdoCancelDispatch_keeps hset).mono fun _ _ _ h => h.1
  | cfg => exact htidy cfgDispatch_tidy
  | other => exact .ret hset

theorem commandBatch_keeps {count : Nat} (hset : own.Settled)
    : Keeps cfg (commandBatch cfg count) own m fun _ own' _ => own'.Settled := by
  induction count generalizing own m with
  | zero => exact .ret hset
  | succ count ih =>
    unfold commandBatch
    apply Keeps.bind
    apply Keeps.between hset
    apply Keeps.bind
    apply Keeps.mqReceive hset rfl
    intro command own₁ m₁ hset₁ hknown
    cases command with
    | none => exact .ret hset₁
    | some command =>
      apply Keeps.call (commandExecute_keeps hset₁ fun r hcommand => hknown r (by rw [hcommand]))
      rintro _ own₂ m₂ hset₂
      exact ih hset₂

theorem commandDrain_keeps (hset : own.Settled)
    : Keeps cfg commandDrain own m fun _ own' _ => own'.Settled := by
  unfold commandDrain
  apply Keeps.loop (fun _ own' _ => own'.Settled) hset
  rintro _ own₁ m₁ hset₁
  apply Keeps.bind
  apply Keeps.between hset₁
  apply Keeps.bind
  apply Keeps.mqReceive hset₁ rfl
  intro command own₂ m₂ hset₂ _
  cases command with
  | none => exact .ret hset₂
  | some command =>
    apply Keeps.bind
    exact Keeps.still commandCancelQueued_still fun _ _ _ hsame _ => .ret (hsame.settled hset₂)

theorem commandDispatch_keeps (hset : own.Settled)
    : Keeps cfg (commandDispatch cfg) own m fun _ own' _ => own'.Settled := by
  unfold commandDispatch
  apply Keeps.bind
  refine Keeps.still (.exec trivial) fun exists_ own₁ m₁ hsame _ => ?_
  have hset₁ := hsame.settled hset
  split
  . exact commandBatch_keeps hset₁
  . exact .ret hset₁

/-- The Client-SDO of a node is gone for good. -/
theorem sdoFiniOne_keeps (hset : own.Settled)
    : Keeps cfg (sdoFiniOne node) own m fun _ own' _ => own'.Settled := by
  unfold sdoFiniOne
  apply Keeps.call (csdoDestroy_keeps hset (by simp))
  rintro _ own₁ m₁ ⟨hclear, hnone, _⟩
  apply Keeps.bind
  refine Keeps.step rfl trivial (fun _ _ => rfl) fun _ => ?_
  apply Keeps.bind
  refine Keeps.step rfl trivial (fun _ _ => rfl) fun _ => ?_
  refine Keeps.step rfl trivial (fun _ _ => rfl) fun _ => ?_
  have honly : own₁.OnlyNode node
      {
        own₁ with
          sdoActive := Function.update own₁.sdoActive node none
          activated := own₁.activated ++ (none : Option ι).toList
          sdoPending := Function.update own₁.sdoPending node none
          misc :=
            {
              own₁.misc.event (.fini node) with
                sdoStopPending := Function.update own₁.misc.sdoStopPending node false
            }
      } :=
    ⟨fun _ hne => Function.update_of_ne hne .., fun _ hne => Function.update_of_ne hne ..⟩
  intro node'
  by_cases hne : node' = node
  . subst hne
    refine ⟨by simp, by simp, fun _ _ _ => .inl hnone, by simp [hnone]⟩
  . apply honly.nodeOk hne rfl fun _ _ => rfl
    apply hclear.others
    intro hchan
    exact hne (chan_eq_predefined hchan).symm

theorem sdoFini_keeps (hset : own.Settled)
    : Keeps cfg sdoFini own m fun _ own' _ => own'.Settled := by
  unfold sdoFini
  apply Keeps.call (sdoCancelNode_tidy own m hset)
  rintro _ own₁ m₁ ⟨hkept, _⟩
  apply Keeps.bind
  refine Keeps.still sdoCancelWaitIdle_still fun _ own₂ m₂ hsame₂ _ => ?_
  apply Keeps.bind
  refine Keeps.still (.exec trivial) fun _ own₃ m₃ hsame₃ _ => ?_
  apply Keeps.forEach (fun _ own' _ => own'.Settled)
  . exact (hsame₂.trans hsame₃).settled hkept.settled
  . exact fun _ _ h => h
  . exact fun _ _ _ _ h => sdoFiniOne_keeps h

theorem commandFini_keeps (hset : own.Settled)
    : Keeps cfg commandFini own m fun _ own' _ => own'.Settled := by
  have hrest (own₁ : Own ι κ) (m₁ : Mode ι) (hset : own₁.Settled)
      : Keeps cfg
          (do
            exec (.mark .drained)
            sdoFini
            let exists_ : Bool ← exec .mqExists
            if exists_ then exec .mqDelete else pure ())
          own₁ m₁ fun _ own' _ => own'.Settled := by
    apply Keeps.bind
    refine Keeps.still (.exec trivial) fun _ own₂ m₂ hsame₂ _ => ?_
    apply Keeps.call (sdoFini_keeps (hsame₂.settled hset))
    rintro _ own₃ m₃ hset₃
    refine Keeps.still ?_ fun _ _ _ hsame _ => hsame.settled hset₃
    exact .op trivial fun (_ : Bool) => .ite_pure (.exec trivial)
  unfold commandFini
  apply Keeps.bind
  refine Keeps.still commandQuiesceBegin_still fun _ own₁ m₁ hsame₁ _ => ?_
  apply Keeps.bind
  refine Keeps.still commandWaitIdle_still fun _ own₂ m₂ hsame₂ _ => ?_
  apply Keeps.bind
  refine Keeps.still (.exec trivial) fun exists_ own₃ m₃ hsame₃ _ => ?_
  have hset₃ := (hsame₁.trans (hsame₂.trans hsame₃)).settled hset
  dsimp only
  split
  . apply Keeps.call (commandDrain_keeps hset₃)
    exact fun _ own₄ m₄ hset₄ => hrest own₄ m₄ hset₄
  . exact hrest own₃ m₃ hset₃

theorem ownerCleanup_keeps (hset : own.Settled)
    : Keeps cfg ownerCleanup own m fun _ own' _ => own'.Settled := by
  unfold ownerCleanup
  apply Keeps.bind
  refine Keeps.still commandQuiesceBegin_still fun _ own₁ m₁ hsame₁ _ => ?_
  apply Keeps.bind
  refine Keeps.still commandWaitIdle_still fun _ own₂ m₂ hsame₂ _ => ?_
  apply Keeps.bind
  refine Keeps.still (.exec trivial) fun _ own₃ m₃ hsame₃ _ => ?_
  apply Keeps.bind
  refine Keeps.still (.exec trivial) fun _ own₄ m₄ hsame₄ _ => ?_
  have hset₄ := (hsame₁.trans (hsame₂.trans (hsame₃.trans hsame₄))).settled hset
  apply Keeps.call (commandFini_keeps hset₄)
  rintro _ own₅ m₅ hset₅
  refine Keeps.still ?_ fun _ _ _ hsame _ => hsame.settled hset₅
  refine .op trivial fun _ => .bind callbacksWaitIdle_still fun _ => .bind masterFini_still fun _ => ?_
  exact .op (fun _ => ⟨rfl, rfl⟩) fun _ => .exec trivial

theorem ownerInit_keeps (hset : own.Settled)
    : Keeps cfg ownerInit own m fun _ own' _ => own.Kept own' := by
  have hqueue (own₁ : Own ι κ) (m₁ : Mode ι) (hkept₁ : own.Kept own₁)
      : Keeps cfg
          (do
            let queue : Bool ← exec .pick
            if !queue then
              pure false
            else do
              exec .mqCreate
              drainLoop
              exec .pick)
          own₁ m₁ fun (_ : Bool) own' _ => own.Kept own' := by
    apply Keeps.bind
    apply Keeps.pick
    intro queue
    refine Keeps.ite (fun _ => .ret hkept₁) (fun _ => ?_)
    apply Keeps.bind
    refine Keeps.still (.exec trivial) fun _ own₂ m₂ hsame₂ _ => ?_
    have hkept₂ := hkept₁.same hsame₂
    apply Keeps.call (drainLoop_keeps hkept₂.settled)
    rintro _ own₃ m₃ hkept₃
    apply Keeps.pick
    exact fun _ => hkept₂.trans hkept₃
  have hready (configured : Bool) (own₁ : Own ι κ) (m₁ : Mode ι) (hkept₁ : own.Kept own₁)
      : Keeps cfg
          (do
            let ready : Bool ← exec .pick
            if !ready then
              pure false
            else do
              let own : Own ι κ ← exec .own
              if configured then exec (.storeLocalNodeId own.misc.localId) else pure ()
              let queue : Bool ← exec .pick
              if !queue then
                pure false
              else do
                exec .mqCreate
                drainLoop
                exec .pick)
          own₁ m₁ fun (_ : Bool) own' _ => own.Kept own' := by
    apply Keeps.bind
    apply Keeps.pick
    intro ready
    refine Keeps.ite (fun _ => .ret hkept₁) (fun _ => ?_)
    apply Keeps.bind
    apply Keeps.readOwn
    intro sh _
    refine Keeps.ite (fun _ => ?_) (fun _ => hqueue own₁ _ hkept₁)
    apply Keeps.bind
    refine Keeps.still (.exec trivial) fun _ own₂ m₂ hsame₂ _ => ?_
    exact hqueue own₂ m₂ (hkept₁.same hsame₂)
  unfold ownerInit
  apply Keeps.bind
  apply Keeps.pick
  intro created
  refine Keeps.ite (fun _ => .ret (.refl hset)) (fun _ => ?_)
  apply Keeps.bind
  refine Keeps.still callbacksInit_still fun _ own₁ m₁ hsame₁ _ => ?_
  apply Keeps.bind
  apply Keeps.pick
  intro network
  refine Keeps.ite (fun _ => .ret (hsame₁.kept hset)) (fun _ => ?_)
  apply Keeps.bind
  refine Keeps.still (.exec fun _ => ⟨rfl, rfl⟩) fun _ own₂ m₂ hsame₂ _ => ?_
  have hkept₂ := (hsame₁.trans hsame₂).kept hset
  apply Keeps.bind
  apply Keeps.pick
  intro configured
  refine Keeps.ite (fun _ => ?_) (fun _ => hready configured own₂ _ hkept₂)
  apply Keeps.bind
  refine Keeps.still (.exec fun _ => ⟨rfl, rfl⟩) fun _ own₃ m₃ hsame₃ _ => ?_
  have hkept₃ := hkept₂.same hsame₃
  apply Keeps.call (drainLoop_keeps hkept₃.settled)
  rintro _ own₄ m₄ hkept₄
  exact hready configured own₄ m₄ (hkept₃.trans hkept₄)

theorem ownerTurn_keeps (hset : own.Settled)
    (hreaped : ∀ node, node ≠ 0 → node ≤ numNodes → own.Reaped node)
    : Keeps cfg (ownerTurn cfg) own m fun go own' _ =>
        own'.Settled
          ∧ (go = true → ∀ node, node ≠ 0 → node ≤ numNodes → own'.Reaped node) := by
  unfold ownerTurn
  apply Keeps.bind
  apply Keeps.between hset
  apply Keeps.bind
  refine Keeps.step rfl ⟨hset, hreaped⟩ (fun _ _ => rfl) fun stop => ?_
  apply Keeps.bind
  refine Keeps.still (.exec trivial) fun failed own₁ m₁ hsame₁ _ => ?_
  have hset₁ := hsame₁.settled hset
  split
  next => exact .ret ⟨hset₁, by simp⟩
  next =>
    apply Keeps.call (drainLoop_keeps hset₁)
    rintro _ own₂ m₂ hkept₂
    apply Keeps.bind
    refine Keeps.still (.exec trivial) fun failed own₃ m₃ hsame₃ _ => ?_
    have hset₃ := hsame₃.settled hkept₂.settled
    split
    next => exact .ret ⟨hset₃, by simp⟩
    next =>
      apply Keeps.call (commandDispatch_keeps hset₃)
      rintro _ own₄ m₄ hset₄
      apply Keeps.call (drainLoop_keeps hset₄)
      rintro _ own₅ m₅ hkept₅
      apply Keeps.call (sdoReap_keeps hkept₅.settled)
      rintro _ own₆ m₆ ⟨hset₆, hreaped₆, _⟩
      exact .ret ⟨hset₆, fun _ => hreaped₆⟩

theorem ownerEntry_keeps (hset : own.Settled) (hidle : own.Idle)
    : Keeps cfg (ownerEntry cfg) own m fun _ own' _ => own'.Settled := by
  unfold ownerEntry
  apply Keeps.call (ownerInit_keeps hset)
  rintro ready own₁ m₁ hkept₁
  dsimp only
  split
  next =>
    apply Keeps.bind
    refine Keeps.still (.exec trivial) fun _ own₂ m₂ hsame₂ _ => ?_
    apply Keeps.bind
    refine Keeps.still commandAdmissionOpen_still fun _ own₃ m₃ hsame₃ _ => ?_
    have hkept₃ := hkept₁.same (hsame₂.trans hsame₃)
    apply Keeps.bind
    apply Keeps.loop (fun _ own' _ => own'.Settled
      ∧ ∀ node, node ≠ 0 → node ≤ numNodes → own'.Reaped node)
    . exact ⟨hkept₃.settled, fun node _ _ => .inr (hkept₃.idle hidle node).2⟩
    . rintro _ own₄ m₄ ⟨hset₄, hreaped₄⟩
      apply Keeps.call (ownerTurn_keeps hset₄ hreaped₄)
      rintro go own₅ m₅ ⟨hset₅, hreaped₅⟩
      cases go with
      | true => exact .ret ⟨hset₅, hreaped₅ rfl⟩
      | false => exact .ret (ownerCleanup_keeps hset₅)
  next => exact ownerCleanup_keeps hkept₁.settled

end LelyRtt
