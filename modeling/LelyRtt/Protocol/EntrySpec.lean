import LelyRtt.Protocol.QueueSpec

/-!
This module contains the specifications of the rest of the owner thread, up to its entry function.
-/

namespace LelyRtt

open Conc

variable {ι κ : Type} [DecidableEq ι] [DecidableEq κ] [Fintype ι] [Fintype κ]
  {cfg : BuildConfig} {lim : Limits} {own own' : Own ι κ} {v v' : View ι} {r : ι} {node : Nat}

/-- Requests may have been completed, and the bookkeeping of NMT may have changed. -/
structure Handled (own : Own ι κ) (v : View ι) (own' : Own ι κ) (v' : View ι) : Prop where
  rest : v'.Rest
  fifo : ∀ node, v.fifo node = [] → v'.fifo node = []
  phase : v'.phase = v.phase
  active : ∀ node, own'.sdoActive node = own.sdoActive node ∨ own'.sdoActive node = none
  localId : own'.misc.localId = own.misc.localId
  pinStage : own'.pinStage = own.pinStage

section

omit [DecidableEq ι] [DecidableEq κ] [Fintype ι] [Fintype κ]

theorem Swept.handled (h : Swept own v own' v') : Handled own v own' v' :=
  ⟨h.rest, h.fifo, h.phase, h.active, h.localId, h.pinStage⟩

namespace Handled

variable {own'' : Own ι κ} {v'' : View ι}

theorem refl (hrest : v.Rest) : Handled own v own v := (Swept.refl hrest).handled

theorem trans (h : Handled own v own' v') (h' : Handled own' v' own'' v'')
    : Handled own v own'' v'' where
  rest := h'.rest
  fifo node hnil := h'.fifo node (h.fifo node hnil)
  phase := h'.phase.trans h.phase
  active node := by
    obtain heq | hnone := h'.active node
    . rw [heq]
      exact h.active node
    . exact .inr hnone
  localId := h'.localId.trans h.localId
  pinStage := h'.pinStage.trans h.pinStage

theorem ended (hdetached : v.detached = []) (h : Ended own v own' v') : Handled own v own' v' :=
  (Swept.ended hdetached h).handled

theorem setMisc {misc : Misc κ} (hlocal : misc.localId = own.misc.localId)
    (hhandled : Handled own' v' own v) : Handled own' v' { own with misc := misc } v :=
  hhandled.trans ⟨hhandled.rest, fun _ => id, rfl, fun _ => .inl rfl, hlocal, rfl⟩

end Handled

end

omit [DecidableEq ι] [DecidableEq κ] [Fintype ι] [Fintype κ] in
theorem MiscStep.event (e : GateEvent) : MiscStep lim own (own.misc.event e) :=
  ⟨rfl, .inl ⟨rfl, rfl⟩, fun _ _ => .inl, fun _ => id, [e], rfl, rfl⟩

omit [DecidableEq ι] [DecidableEq κ] [Fintype ι] [Fintype κ] in
/-- Configurations or boots end. -/
theorem MiscStep.ends {misc : Misc κ} (hchannel : misc.sdoChannel = own.misc.sdoChannel)
    (hmaster : misc.masterNmt = own.misc.masterNmt ∧ misc.canNet = own.misc.canNet)
    (hbooting : ∀ node, misc.booting node = true → own.misc.booting node = true)
    (hcfg : ∀ node, own.misc.cfgActive node = none → misc.cfgActive node = none)
    (hgate : misc.gateLog = own.misc.gateLog ∧ misc.gate = own.misc.gate)
    : MiscStep lim own misc where
  channel := hchannel
  master := .inl hmaster
  exclusive := by
    rintro _ node (hnode | hnode)
    . exact .inl (.inl (hbooting node hnode))
    . exact .inl (.inr fun hnone => hnode (hcfg node hnone))
  single := fun _ hsingle node hnode => hcfg node (hsingle node (hbooting node hnode))
  gate := ⟨[], by simp [hgate.1], hgate.2⟩

/-- The bookkeeping changes in a step that respects it. -/
theorem setMisc_spec {f : Misc κ → Misc κ} {own₀ : Own ι κ} {v₀ : View ι}
    (hhandled : Handled own₀ v₀ own v) (hstep : MiscStep lim own (f own.misc))
    (hlocal : (f own.misc).localId = own.misc.localId)
    : Ensures cfg lim (exec (.setMisc f : Op ι κ)) own v fun _ own' v' =>
        Handled own₀ v₀ own' v' ∧ own' = { own with misc := f own.misc } := by
  apply Ensures.step (fun _ _ => rfl) (fun _ _ _ => .setMisc hstep)
  intro _
  exact ⟨.setMisc hlocal hhandled, rfl⟩

theorem setGate_spec {e : GateEvent} {own₀ : Own ι κ} {v₀ : View ι}
    (hhandled : Handled own₀ v₀ own v)
    : Ensures cfg lim (setGate e : Owner ι κ Unit) own v fun _ own' v' => Handled own₀ v₀ own' v'
        ∧ own' = { own with misc := own.misc.event e } :=
  setMisc_spec hhandled (.event e) rfl

theorem sdoBeforeBoot_spec (hrest : v.Rest) (hpin : own.pinStage = .none)
    : Ensures cfg lim (sdoBeforeBoot node) own v fun _ own' v' => Handled own v own' v'
        ∧ (node ≠ 0 → node ≤ numNodes → own'.sdoActive node = none)
        ∧ own'.misc.cfgActive = own.misc.cfgActive := by
  unfold sdoBeforeBoot
  split
  next hnode => exact .ret ⟨.refl hrest, by omega, rfl⟩
  next hnode =>
    apply Ensures.call (sdoCancelNode_spec hrest hpin)
    rintro _ own₁ v₁ ⟨hswept, hempty⟩
    have hactive := (hempty (by omega) node (by simp [targets, show node ≠ 0 by omega])).2
    apply Ensures.call (csdoDestroy_spec hswept.rest.1 (hswept.pinStage.trans hpin))
    intro _ own₂ v₂ hended
    have hswept₂ := Swept.ended hswept.rest.2 hended
    apply (setGate_spec (hswept.trans hswept₂).handled).mono
    rintro _ _ v₃ ⟨hhandled₃, rfl⟩
    exact ⟨hhandled₃, fun _ _ => hswept₂.active_none hactive, (hswept.trans hswept₂).nmt.2⟩

theorem sdoOnNmtState_spec {state : Nat} (hrest : v.Rest) (hpin : own.pinStage = .none)
    : Ensures cfg lim (sdoOnNmtState node state) own v fun _ own' v' => Handled own v own' v' := by
  have hgate {own' : Own ι κ} {v' : View ι} (hhandled : Handled own v own' v')
      : Ensures cfg lim
          (exec (.setMisc fun misc =>
            misc.event (.state node state (misc.masterNmt && misc.booting node))))
          own' v' fun _ own' v' => Handled own v own' v' := by
    apply (setMisc_spec hhandled (.event _) rfl).mono
    exact fun _ _ _ h => h.1
  unfold sdoOnNmtState
  split
  next => exact .ret (.refl hrest)
  next =>
    refine Ensures.ite (fun _ => ?_) (fun _ => hgate (.refl hrest))
    apply Ensures.call (sdoCancelNode_spec hrest hpin)
    intro _ own' v' hres
    exact hgate hres.1.handled

theorem bootInd_spec {st : Nat} {own₀ : Own ι κ} {v₀ : View ι} (hhandled : Handled own₀ v₀ own v)
    : Ensures cfg lim (bootInd node st) own v fun _ own' v' => Handled own₀ v₀ own' v' := by
  unfold bootInd
  refine Ensures.ite (fun _ => .ret hhandled) (fun _ => ?_)
  apply Ensures.call (setGate_spec hhandled)
  rintro _ _ v' ⟨hhandled, rfl⟩
  apply (setMisc_spec hhandled (.of_same rfl (.inl ⟨rfl, rfl⟩) rfl rfl ⟨rfl, rfl⟩) rfl).mono
  exact fun _ _ _ h => h.1

/-- A boot starts for a node without an active transfer, or ends. -/
theorem setBooting_spec {booting : Bool} {own₀ : Own ι κ} {v₀ : View ι}
    (hhandled : Handled own₀ v₀ own v) (hactive : booting = true → own.sdoActive node = none)
    (hcfg : booting = true → lim.idleCfgs → own.misc.cfgActive node = none)
    : Ensures cfg lim (setBooting node booting) own v fun _ own' v' => Handled own₀ v₀ own' v' := by
  refine Ensures.mono (setMisc_spec hhandled ?_ rfl) (fun _ _ _ h => h.1)
  refine ⟨rfl, .inl ⟨rfl, rfl⟩, ?_, ?_, [], by simp, rfl⟩
  . intro _ other hexcludes
    by_cases heq : other = node
    . cases booting with
      | true => exact .inr (heq ▸ hactive rfl)
      | false => exact .inl (.inr (by simpa [Misc.excludes, heq] using hexcludes))
    . exact .inl (by simpa [Misc.excludes, heq] using hexcludes)
  . intro hlim hsingle other hbooting
    by_cases heq : other = node
    . subst heq
      simp only [Function.update_self] at hbooting
      exact hcfg hbooting hlim
    . exact hsingle other (by simpa [heq] using hbooting)

theorem nmtOnSt_spec {st : Nat} {boot : BootOutcome} (hrest : v.Rest)
    (hactive : node ≠ 0 → node ≤ numNodes → st = stBootup → node ≠ own.misc.localId →
      own.sdoActive node = none)
    (hcfg : lim.idleCfgs → st = stBootup → boot ≠ .refused → own.misc.cfgActive node = none)
    : Ensures cfg lim (nmtOnSt node st boot) own v fun _ own' v' => Handled own v own' v' := by
  unfold nmtOnSt
  apply Ensures.bind
  apply Ensures.readOwn
  intro _ _
  split
  next => exact .ret (.refl hrest)
  next hboot =>
    simp only [not_or, not_not] at hboot
    have hactive := hactive hboot.1 (by omega) hboot.2.2.1 hboot.2.2.2.1
    cases boot with
    | refused => exact .ret (.refl hrest)
    | started =>
      exact setBooting_spec (.refl hrest) (fun _ => hactive)
        fun _ hlim => hcfg hlim hboot.2.2.1 (by simp)
    | finished state =>
      apply Ensures.call (setBooting_spec (.refl hrest) (fun _ => hactive)
        fun _ hlim => hcfg hlim hboot.2.2.1 (by simp))
      intro _ own' v' hhandled
      apply Ensures.call (setBooting_spec hhandled (by simp) (by simp))
      intro _ own' v' hhandled
      exact bootInd_spec hhandled

theorem remoteStateInd_spec {st : Nat} {boot : BootOutcome} (hrest : v.Rest)
    (hpin : own.pinStage = .none)
    (hcfg : lim.idleCfgs → st = stBootup → boot ≠ .refused → own.misc.cfgActive node = none)
    : Ensures cfg lim (remoteStateInd node st boot) own v fun _ own' v' => Handled own v own' v' := by
  -- what follows the preparation of a boot
  have hafter (own₁ : Own ι κ) (v₁ : View ι) (hhandled : Handled own v own₁ v₁)
      (hactive : node ≠ 0 → node ≤ numNodes → st = stBootup → node ≠ own₁.misc.localId →
        own₁.sdoActive node = none)
      (hcfg₁ : own₁.misc.cfgActive = own.misc.cfgActive)
      : Ensures cfg lim
          (do
            nmtOnSt node st boot
            let own : Own ι κ ← exec .own
            if node = own.misc.localId ∨ node = 0 ∨ node > numNodes then
              pure ()
            else if untoggle st = stBootup ∧ own.misc.bootResultValid node then
              pure ()
            else
              sdoOnNmtState node (untoggle st))
          own₁ v₁ fun _ own' v' => Handled own v own' v' := by
    apply Ensures.call (nmtOnSt_spec hhandled.rest hactive (by rwa [hcfg₁]))
    intro _ own₂ v₂ hhandled₂
    have hhandled₂ := hhandled.trans hhandled₂
    apply Ensures.bind
    apply Ensures.readOwn
    intro _ _
    refine Ensures.ite (fun _ => .ret hhandled₂) (fun _ => ?_)
    refine Ensures.ite (fun _ => .ret hhandled₂) (fun _ => ?_)
    apply (sdoOnNmtState_spec hhandled₂.rest (hhandled₂.pinStage.trans hpin)).mono
    intro _ own₃ v₃ hhandled₃
    exact hhandled₂.trans hhandled₃
  unfold remoteStateInd
  apply Ensures.bind
  apply Ensures.readOwn
  intro _ _
  refine Ensures.ite (fun hboot => ?_) (fun hboot => ?_)
  . apply Ensures.call
      (setMisc_spec (.refl hrest) (.of_same rfl (.inl ⟨rfl, rfl⟩) rfl rfl ⟨rfl, rfl⟩) rfl)
    rintro _ own₁ v₁ ⟨hhandled, heq⟩
    apply Ensures.call (sdoBeforeBoot_spec hhandled.rest (hhandled.pinStage.trans hpin))
    rintro _ own₂ v₂ ⟨hhandled₂, hactive, hcfg₂⟩
    refine hafter own₂ v₂ (hhandled.trans hhandled₂)
      (fun hnode hnumNodes _ _ => hactive hnode hnumNodes) ?_
    rw [hcfg₂, heq]
  . refine hafter own v (.refl hrest) ?_ rfl
    intro hnode hnumNodes hst hlocal
    refine absurd ⟨hnode, hnumNodes, hlocal, ?_⟩ hboot
    rw [hst]
    rfl

theorem cfgOnLocalNmtState_spec {state : Nat} {own₀ : Own ι κ} {v₀ : View ι}
    (hhandled : Handled own₀ v₀ own v)
    : Ensures cfg lim (cfgOnLocalNmtState state) own v fun _ own' v' =>
        Handled own₀ v₀ own' v' ∧ own'.sdoActive = own.sdoActive
          ∧ (state = stPreop → ∀ node, own'.misc.cfgActive node = none) := by
  unfold cfgOnLocalNmtState
  refine Ensures.ite (fun hstate => .ret ⟨hhandled, rfl, fun heq => absurd heq hstate.2⟩) (fun _ => ?_)
  refine Ensures.mono (setMisc_spec hhandled ?_ rfl) ?_
  . exact .ends rfl ⟨rfl, rfl⟩ (fun _ => id) (fun _ _ => rfl) ⟨rfl, rfl⟩
  rintro _ _ v' ⟨hhandled, rfl⟩
  exact ⟨hhandled, rfl, fun _ _ => rfl⟩

theorem nmtSlavesFini_spec {own₀ : Own ι κ} {v₀ : View ι} (hhandled : Handled own₀ v₀ own v)
    : Ensures cfg lim nmtSlavesFini own v fun _ own' v' =>
        Handled own₀ v₀ own' v' ∧ own'.sdoActive = own.sdoActive := by
  refine Ensures.mono (setMisc_spec hhandled ?_ rfl) ?_
  . exact .ends rfl ⟨rfl, rfl⟩ (fun _ h => by cases h) (fun _ => id) ⟨rfl, rfl⟩
  rintro _ _ v' ⟨hhandled, rfl⟩
  exact ⟨hhandled, rfl⟩

theorem localStateInd_spec {st : Nat} (hrest : v.Rest)
    : Ensures cfg lim (localStateInd st) own v fun _ own' v' => Handled own v own' v' := by
  have hcfg {own' : Own ι κ} {v' : View ι} (hhandled : Handled own v own' v')
      : Ensures cfg lim (cfgOnLocalNmtState (untoggle st)) own' v' fun _ own' v' =>
          Handled own v own' v' :=
    (cfgOnLocalNmtState_spec hhandled).mono fun _ _ _ h => h.1
  unfold localStateInd
  refine Ensures.ite (fun _ => ?_) (fun _ => hcfg (.refl hrest))
  apply Ensures.call (nmtSlavesFini_spec (.refl hrest))
  intro _ own' v' hres
  exact hcfg hres.1

theorem localPreop_spec {boots : List Nat} (hrest : v.Rest)
    (hidle : lim.idleBoots → ∀ node ∈ boots, own.sdoActive node = none)
    : Ensures cfg lim (localPreop boots) own v fun _ own' v' => Handled own v own' v' := by
  unfold localPreop
  apply Ensures.call (nmtSlavesFini_spec (.refl hrest))
  rintro _ own₁ v₁ ⟨hhandled, hactive⟩
  apply Ensures.call (cfgOnLocalNmtState_spec hhandled)
  rintro _ own₂ v₂ ⟨hhandled, hactive₂, hcfg⟩
  have hcfg := hcfg rfl
  apply Ensures.bind
  apply Ensures.readOwn
  intro _ _
  refine Ensures.mono (setMisc_spec hhandled ?_ rfl) (fun _ _ _ h => h.1)
  refine ⟨rfl, .inl ⟨rfl, rfl⟩, ?_, fun _ _ node _ => hcfg node, [], by simp, rfl⟩
  intro hlim node hexcludes
  obtain hbooting | hcfg := hexcludes
  . simp only [Bool.decide_or, Bool.or_eq_true, decide_eq_true_eq] at hbooting
    obtain hboot | hbooting := hbooting
    . exact .inr (by rw [hactive₂, hactive, hidle hlim node hboot.1])
    . exact .inl (.inl (by simpa using hbooting))
  . exact .inl (.inr hcfg)

theorem cfgComplete_spec {c : κ} {own₀ : Own ι κ} {v₀ : View ι}
    (hhandled : Handled own₀ v₀ own v)
    : Ensures cfg lim (cfgComplete c node) own v fun _ own' v' => Handled own₀ v₀ own' v' := by
  unfold cfgComplete
  apply Ensures.bind
  apply Ensures.readOwn
  intro _ _
  refine Ensures.ite (fun _ => ?_) (fun _ => .ret hhandled)
  refine Ensures.mono (setMisc_spec hhandled ?_ rfl) (fun _ _ _ h => h.1)
  refine .ends rfl ⟨rfl, rfl⟩ (fun _ => id) ?_ ⟨rfl, rfl⟩
  intro other hnone
  by_cases heq : other = node
  . simp [heq]
  . simpa [heq] using hnone

theorem cfgDispatch_spec {c : κ} (hrest : v.Rest) (hpin : own.pinStage = .none)
    : Ensures cfg lim (cfgDispatch c node) own v fun _ own' v' => Handled own v own' v' := by
  have hrefl : Handled own v own v := .refl hrest
  unfold cfgDispatch
  refine Ensures.ite (fun _ => .ret hrefl) (fun hnode => ?_)
  apply Ensures.bind
  apply Ensures.readOwn
  intro _ _
  refine Ensures.ite (fun _ => cfgComplete_spec hrefl) (fun _ => ?_)
  refine Ensures.ite (fun _ => .ret hrefl) (fun _ => ?_)
  apply Ensures.bind
  apply Ensures.pick
  intro accepted
  refine Ensures.ite (fun _ => cfgComplete_spec hrefl) (fun _ => ?_)
  refine Ensures.ite (fun _ => cfgComplete_spec hrefl) (fun hbooting => ?_)
  apply Ensures.call (sdoCancelNode_spec hrest hpin)
  rintro _ own₁ v₁ ⟨hswept, hempty⟩
  have hactive := (hempty (by omega) node (by simp [targets, show node ≠ 0 by omega])).2
  apply Ensures.bind
  refine Ensures.mono (setMisc_spec hswept.handled ?_ rfl) ?_
  . refine ⟨rfl, .inl ⟨rfl, rfl⟩, ?_, ?_, [], by simp, rfl⟩
    . intro _ other hexcludes
      by_cases heq : other = node
      . exact .inr (heq ▸ hactive)
      . exact .inl (by simpa [Misc.excludes, heq] using hexcludes)
    . intro _ hsingle other hother
      by_cases heq : other = node
      . exact absurd (heq ▸ hswept.nmt.1 ▸ hother) hbooting
      . simpa [heq] using hsingle other hother
  rintro _ own₂ v₂ ⟨hhandled₂, _⟩
  apply Ensures.bind
  apply Ensures.exec
  intro sh input outcome own₃ sh' _ hrun _
  cases hrun
  refine ⟨v₂, .look trivial, ?_⟩
  cases input.cfgOutcome with
  | started => exact .ret hhandled₂
  | failed => exact cfgComplete_spec hhandled₂
  | confirmed failed =>
    apply Ensures.call (cfgComplete_spec hhandled₂)
    intro _ own₃ v₃ hhandled₃
    exact Ensures.ite (fun _ => cfgComplete_spec hhandled₃) (fun _ => .ret hhandled₃)

theorem cfgCon_spec (hrest : v.Rest)
    : Ensures cfg lim (cfgCon node) own v fun _ own' v' => Handled own v own' v' := by
  unfold cfgCon
  apply Ensures.bind
  apply Ensures.readOwn
  intro _ _
  cases own.misc.cfgActive node with
  | none => exact .ret (.refl hrest)
  | some c => exact cfgComplete_spec (.refl hrest)

theorem commandDispatchNmt_spec {command : NmtCommand} (hrest : v.Rest) (hpin : own.pinStage = .none)
    : Ensures cfg lim (commandDispatchNmt node command) own v fun _ own' v' =>
        Handled own v own' v' := by
  have haccept {own' : Own ι κ} {v' : View ι} (hhandled : Handled own v own' v')
      : Ensures cfg lim
          (do
            let accepted : Bool ← exec .pick
            if accepted then setGate (.command node command) else pure ())
          own' v' fun _ own' v' => Handled own v own' v' := by
    apply Ensures.bind
    apply Ensures.pick
    intro accepted
    exact Ensures.ite (fun _ => (setGate_spec hhandled).mono fun _ _ _ h => h.1) (fun _ => .ret hhandled)
  unfold commandDispatchNmt
  apply Ensures.bind
  apply Ensures.readOwn
  intro _ _
  refine Ensures.ite (fun _ => .ret (.refl hrest)) (fun _ => ?_)
  cases command with
  | start | preop => exact haccept (.refl hrest)
  | stop | resetNode | resetComm =>
    apply Ensures.call (sdoCancelNode_spec hrest hpin)
    intro _ own' v' hres
    exact haccept hres.1.handled

/-- A custom Client-SDO that runs no application transfer changes. -/
theorem setCsdo_spec {chan : Chan} {csdo : Csdo ι} (hrest : v.Rest) (hcsdo : ∀ r, csdo ≠ .busy r)
    : Ensures cfg lim (exec (.setCsdo chan (some csdo) : Op ι κ)) own v fun _ own' v' =>
        Handled own v own' v' := by
  apply Ensures.step (fun _ _ => rfl) (fun _ _ _ => .setCsdo (by simpa using hcsdo))
  intro _
  exact .ended hrest.2 (.setCsdo hrest.1 _)

theorem lelyRun_spec {work : LelyWork} (hrest : v.Rest) (hpin : own.pinStage = .none)
    (hpermits : Op.permits lim own (.work : Op ι κ) work)
    : Ensures cfg lim (lelyRun work) own v fun _ own' v' => Handled own v own' v' := by
  have hrefl : Handled own v own v := .refl hrest
  unfold lelyRun
  apply Ensures.bind
  apply Ensures.readOwn
  intro sh hinv
  cases work with
  | none => exact .ret hrefl
  | confirm chan ac data alloc =>
    dsimp only
    split
    next r hcsdo =>
      apply (confirm_spec hrest.1 hpin hcsdo).mono
      exact fun _ _ _ hres => .ended hrest.2 hres.1
    next => exact .ret hrefl
  | remoteState node st boot =>
    exact Ensures.ite (fun _ => remoteStateInd_spec hrest hpin hpermits) (fun _ => .ret hrefl)
  | bootDone node st =>
    refine Ensures.ite (fun _ => ?_) (fun _ => .ret hrefl)
    apply Ensures.call (setBooting_spec hrefl (by simp) (by simp))
    intro _ own' v' hhandled
    exact bootInd_spec hhandled
  | cfgDone node => exact Ensures.ite (fun _ => cfgCon_spec hrest) (fun _ => .ret hrefl)
  | localState st => exact Ensures.ite (fun _ => localStateInd_spec hrest) (fun _ => .ret hrefl)
  | localPreop boots =>
    exact Ensures.ite (fun _ => localPreop_spec hrest hpermits) (fun _ => .ret hrefl)
  | customDestroy number =>
    apply (csdoDestroy_spec hrest.1 hpin).mono
    exact fun _ _ _ hended => .ended hrest.2 hended
  | customCreate number =>
    dsimp only
    split
    next => exact setCsdo_spec hrest (by simp)
    next => exact .ret hrefl
  | customBegin number =>
    dsimp only
    cases own.csdo (.custom number) with
    | none => exact .ret hrefl
    | some csdo =>
      cases csdo with
      | idle => exact setCsdo_spec hrest (by simp)
      | _ => exact .ret hrefl
  | customEnd number =>
    dsimp only
    cases own.csdo (.custom number) with
    | none => exact .ret hrefl
    | some csdo =>
      cases csdo with
      | foreign => exact setCsdo_spec hrest (by simp)
      | _ => exact .ret hrefl

/-- The owner is between two operations. -/
structure Calm (lim : Limits) (own : Own ι κ) (v : View ι) : Prop where
  rest : v.Rest
  pinStage : own.pinStage = .none
  target : lim.uniqueIds → v.phase.closing = false → v.TargetClear

omit [DecidableEq ι] [DecidableEq κ] [Fintype ι] [Fintype κ] in
/-- No cancel command is being dispatched. -/
theorem Calm.of_target (hrest : v.Rest) (hpin : own.pinStage = .none)
    (htarget : v.phase.target = none) : Calm lim own v :=
  ⟨hrest, hpin, fun _ _ _ _ hsome => by simp [htarget] at hsome⟩

/-- The phase without what belongs to one turn of the owner loop. -/
def Phase.base (phase : Phase) : Phase := { phase with old := 0, target := none }

theorem between_spec (hcalm : Calm lim own v)
    : Ensures cfg lim (exec (.between : Op ι κ)) own v fun _ own' v' =>
        own' = own ∧ v' = { v with phase := { v.phase with target := none } } := by
  apply Ensures.step (fun _ _ => rfl) (fun _ _ _ => .between hcalm.rest hcalm.target)
  intro _
  exact ⟨rfl, rfl⟩

theorem drainLoop_spec (hcalm : Calm lim own v)
    : Ensures cfg lim drainLoop own v fun _ own' v' => v'.Rest ∧ own'.pinStage = .none
        ∧ v'.phase = { v.phase with target := none }
        ∧ ∀ node, v.fifo node = [] → v'.fifo node = [] := by
  unfold drainLoop
  refine Ensures.loop (fun _ own' v' => Calm lim own' v'
    ∧ { v'.phase with target := none } = { v.phase with target := none }
    ∧ ∀ node, v.fifo node = [] → v'.fifo node = []) ⟨hcalm, rfl, fun _ => id⟩ ?_
  rintro _ own v' ⟨hcalm, hphase, hfifo⟩
  apply Ensures.call (between_spec hcalm)
  rintro _ own _ ⟨rfl, rfl⟩
  apply Ensures.bind
  apply Ensures.exec
  intro sh input work own' sh' _ hrun hpermits
  cases hrun
  refine ⟨_, .look trivial, ?_⟩
  refine Ensures.ite (fun _ => .ret ⟨hcalm.rest, hcalm.pinStage, hphase, hfifo⟩) (fun _ => ?_)
  refine Ensures.call (lelyRun_spec ?_ hcalm.pinStage hpermits) ?_
  . exact hcalm.rest
  intro _ own' v'' hhandled
  apply Ensures.ret
  refine ⟨.of_target hhandled.rest (hhandled.pinStage.trans hcalm.pinStage) (by rw [hhandled.phase]), ?_,
    fun node hnil => hhandled.fifo node (hfifo node hnil)⟩
  rw [hhandled.phase]
  exact hphase

/-- The next command of the queue is taken out, if there is one. -/
theorem mqReceive_spec {by_ : TakenBy} {Q : Option (Command ι κ) → Own ι κ → View ι → Prop}
    (hrest : v.Rest) (hopened : v.phase.opened = true) (htarget : v.phase.target = none)
    (hby : by_ = .drain → v.phase.closing = true)
    (hnone : ∀ sh, Inv cfg lim own sh v → sh.queue = [] → ∃ v',
      Ghost cfg lim (.mqReceive by_) own sh (none : Option (Command ι κ)) v v' ∧ Q none own v')
    (hsdo : ∀ r node id taken, Q (some (.sdo r)) { own with taken := taken }
      { v.taken.put r (.fresh node) with ident := id })
    (hcancel : ∀ node id taken, (node = 0 ∨ node > numNodes → v.fifo node = []) →
      Q (some (.sdoCancel node id)) { own with taken := taken }
        { v.taken with phase := { v.taken.phase with target := some (node, id) } })
    (hother : ∀ command taken, (∀ r, command ≠ .sdo r) →
      (∀ node id, command ≠ .sdoCancel node id) →
      Q (some command) { own with taken := taken } v.taken)
    : Ensures cfg lim (exec (.mqReceive by_ : Op ι κ)) own v Q := by
  apply Ensures.exec
  intro sh input b own' sh' hinv hrun _
  cases b with
  | none =>
    obtain ⟨hqueue, rfl, rfl⟩ := run_mqReceive_none hrun
    exact hnone sh hinv hqueue
  | some command =>
    obtain ⟨entry, rest, hqueue, rfl, rfl, rfl⟩ := run_mqReceive_some hrun
    cases hcommand : entry.command with
    | sdo r => exact ⟨_, .receiveSdo hrest hopened htarget hby, hsdo r _ _ _⟩
    | sdoCancel node id =>
      exact ⟨_, .receiveCancel htarget hby, hcancel node id _ hinv.fifo_eq_nil⟩
    | _ => exact ⟨_, .receiveOther (by simp) (by simp) hby, hother _ _ (by simp) (by simp)⟩

/-- A command that was taken out of the queue is executed. -/
theorem commandExecute_spec {command : Command ι κ} (hdetached : v.detached = [])
    (hpin : own.pinStage = .none)
    (hsdo : ∀ r, command = .sdo r → ∃ node, v.place r = .fresh node)
    (hcancel : ∀ node id, command = .sdoCancel node id → v.phase.target = some (node, id)
      ∧ (node = 0 ∨ node > numNodes → v.fifo node = []))
    (hhand : (∀ r, command ≠ .sdo r) → v.hand = none)
    (htarget : (∀ node id, command ≠ .sdoCancel node id) → v.phase.target = none)
    : Ensures cfg lim (commandExecute cfg command) own v fun _ own' v' =>
        Calm lim own' v' ∧ v'.phase = v.phase := by
  unfold commandExecute
  have hhandled {own' : Own ι κ} {v' : View ι} (htarget : v.phase.target = none)
      (hhandled : Handled own v own' v') : Calm lim own' v' ∧ v'.phase = v.phase :=
    ⟨.of_target hhandled.rest (hhandled.pinStage.trans hpin) (hhandled.phase ▸ htarget), hhandled.phase⟩
  cases command with
  | nmt node command =>
    apply (commandDispatchNmt_spec ⟨hhand (by simp), hdetached⟩ hpin).mono
    exact fun _ _ _ => hhandled (htarget (by simp))
  | sdo r =>
    obtain ⟨node, hplace⟩ := hsdo r rfl
    apply (sdoDispatch_spec hplace hdetached hpin).mono
    intro _ own' v' hworked
    exact ⟨.of_target hworked.rest (hworked.pinStage.trans hpin)
      (hworked.phase ▸ htarget (by simp)), hworked.phase⟩
  | sdoCancel node id =>
    obtain ⟨htarget, hnil⟩ := hcancel node id rfl
    apply (sdoCancelDispatch_spec ⟨hhand (by simp), hdetached⟩ hpin hnil).mono
    rintro _ own' v' ⟨hhandled, hclear, _⟩
    refine ⟨⟨hhandled.rest, hhandled.pinStage.trans hpin, ?_⟩, hhandled.phase⟩
    intro hlim _ node' id' hsome
    rw [hhandled.phase, htarget] at hsome
    cases hsome
    exact hclear hlim
  | cfg c node =>
    apply (cfgDispatch_spec ⟨hhand (by simp), hdetached⟩ hpin).mono
    exact fun _ _ _ => hhandled (htarget (by simp))
  | other => exact .ret (hhandled (htarget (by simp)) (.refl ⟨hhand (by simp), hdetached⟩))

theorem commandBatch_spec {count : Nat} (hcalm : Calm lim own v) (hopened : v.phase.opened = true)
    (hold : v.phase.old ≤ count)
    : Ensures cfg lim (commandBatch cfg count) own v fun _ own' v' =>
        Calm lim own' v' ∧ v'.phase.base = v.phase.base ∧ v'.phase.old = 0 := by
  induction count generalizing own v with
  | zero => exact .ret ⟨hcalm, rfl, by omega⟩
  | succ count ih =>
    unfold commandBatch
    apply Ensures.call (between_spec hcalm)
    rintro _ own _ ⟨rfl, rfl⟩
    -- a command is executed and the batch goes on
    have hnext {command : Command ι κ} {taken} {v' : View ι} (hphase : v'.phase.base = v.phase.base)
        (hold' : v'.phase.old = v.phase.old - 1)
        (hexec : Ensures cfg lim (commandExecute cfg command) { own with taken := taken } v'
          fun _ own'' v'' => Calm lim own'' v'' ∧ v''.phase = v'.phase)
        : Ensures cfg lim
            (do
              commandExecute cfg command
              commandBatch cfg count)
            { own with taken := taken } v' fun _ own' v' =>
              Calm lim own' v' ∧ v'.phase.base = v.phase.base ∧ v'.phase.old = 0 := by
      apply Ensures.call hexec
      rintro _ own'' v'' ⟨hcalm, hsame⟩
      refine Ensures.mono (ih hcalm ?_ ?_) ?_
      . rw [hsame]
        exact (congrArg Phase.opened hphase).trans hopened
      . rw [hsame]
        omega
      . rintro _ own' v' ⟨hcalm, hbase, hzero⟩
        exact ⟨hcalm, hbase.trans (hsame ▸ hphase), hzero⟩
    apply Ensures.bind
    refine mqReceive_spec hcalm.rest hopened rfl (by simp) ?_ ?_ ?_ ?_
    . intro sh hinv hqueue
      refine ⟨_, .receiveNone, .ret ⟨?_, rfl, ?_⟩⟩
      . exact .of_target hcalm.rest hcalm.pinStage rfl
      . have hzero := hinv.wake.old_le
        rw [hqueue] at hzero
        simpa using hzero
    . intro r node id taken
      refine hnext rfl rfl (commandExecute_spec ?_ hcalm.pinStage ?_ ?_ ?_ ?_)
      . exact hcalm.rest.2
      . rintro r' heq
        cases heq
        exact ⟨node, by simp [View.put]⟩
      . simp
      . intro hnot
        exact absurd rfl (hnot r)
      . exact fun _ => rfl
    . intro node id taken hnil
      refine hnext rfl rfl (commandExecute_spec ?_ hcalm.pinStage ?_ ?_ ?_ ?_)
      . exact hcalm.rest.2
      . simp
      . rintro node' id' heq
        cases heq
        exact ⟨rfl, hnil⟩
      . exact fun _ => hcalm.rest.1
      . intro hnot
        exact absurd rfl (hnot node id)
    . intro command taken hsdo hcancel
      refine hnext rfl rfl (commandExecute_spec ?_ hcalm.pinStage ?_ ?_ ?_ ?_)
      . exact hcalm.rest.2
      . exact fun r heq => absurd heq (hsdo r)
      . exact fun node id heq => absurd heq (hcancel node id)
      . exact fun _ => hcalm.rest.1
      . exact fun _ => rfl

theorem commandDispatch_spec (hcalm : Calm lim own v) (hopened : v.phase.opened = true)
    (hold : v.phase.old ≤ cfg.commandQueueDepth)
    : Ensures cfg lim (commandDispatch cfg) own v fun _ own' v' =>
        Calm lim own' v' ∧ v'.phase.base = v.phase.base ∧ v'.phase.old = 0 := by
  unfold commandDispatch
  apply Ensures.bind
  apply Ensures.exec
  intro sh input exists_ own' sh' hinv hrun _
  cases hrun
  refine ⟨v, .look trivial, Ensures.ite (fun _ => commandBatch_spec hcalm hopened hold) fun hno => ?_⟩
  have hzero := hinv.wake.old_le
  have hnone : sh.commandMq = none := by simpa using hno
  simp only [Shared.queue, hnone, Option.getD_none, List.length_nil, Nat.le_zero] at hzero
  exact .ret ⟨hcalm, rfl, hzero⟩

theorem mqExists_spec {Q : Bool → Own ι κ → View ι → Prop}
    (h : ∀ exists_, (exists_ = true → v.phase.created = true) → Q exists_ own v)
    : Ensures cfg lim (exec (.mqExists : Op ι κ)) own v Q := by
  apply Ensures.exec
  intro sh input exists_ own' sh' hinv hrun _
  cases hrun
  refine ⟨v, .look trivial, h _ ?_⟩
  intro hsome
  by_contra hnot
  simp [hinv.commands.no_queue (by simpa using hnot)] at hsome

theorem commandAdmissionOpen_spec
    : Ensures cfg lim commandAdmissionOpen own v fun _ own' v' => own' = own ∧ v' = v := by
  have hload (Q : Bool → Own ι κ → View ι → Prop) (h : ∀ latched, Q latched own v)
      : Ensures cfg lim (exec (.loadStopLatched : Op ι κ)) own v Q :=
    Ensures.step (fun _ _ => rfl) (fun _ _ _ => .look trivial) h
  have hstore (quiescing : Bool) (Q : Unit → Own ι κ → View ι → Prop) (h : Q () own v)
      : Ensures cfg lim (exec (.storeQuiescing quiescing : Op ι κ)) own v Q :=
    Ensures.step (fun _ _ => rfl) (fun _ _ _ => .quiesce) (fun _ => h)
  unfold commandAdmissionOpen
  apply Ensures.bind
  apply Ensures.readOwn
  intro _ _
  apply Ensures.bind
  apply mqExists_spec
  intro exists_ _
  refine Ensures.ite (fun _ => .ret ⟨rfl, rfl⟩) (fun _ => ?_)
  apply Ensures.bind
  apply hload
  intro latched
  refine Ensures.ite (fun _ => .ret ⟨rfl, rfl⟩) (fun _ => ?_)
  apply Ensures.bind
  apply hstore
  apply Ensures.bind
  apply hload
  intro latched
  refine Ensures.ite (fun _ => ?_) (fun _ => .ret ⟨rfl, rfl⟩)
  apply hstore
  exact ⟨rfl, rfl⟩

theorem commandQuiesceBegin_spec
    : Ensures cfg lim commandQuiesceBegin own v fun _ own' v' =>
        own' = own ∧ v' = { v with phase := { v.phase with closing := true } } := by
  unfold commandQuiesceBegin
  apply Ensures.bind
  apply Ensures.step (fun _ _ => rfl) (fun _ _ _ => .latch)
  intro _
  apply Ensures.step (fun _ _ => rfl) (fun _ _ _ => .quiesce)
  intro _
  exact ⟨rfl, rfl⟩

theorem commandWaitIdle_spec (hclosing : v.phase.closing = true)
    : Ensures cfg lim commandWaitIdle own v fun _ own' v' =>
        own' = own ∧ v' = { v with phase := { v.phase with idle := true } } := by
  unfold commandWaitIdle
  refine Ensures.loop (fun _ own' v' => own' = own ∧ v' = v) ⟨rfl, rfl⟩ ?_
  rintro _ own v ⟨rfl, rfl⟩
  apply Ensures.bind
  apply Ensures.exec
  intro sh input refs own' sh' hinv hrun _
  cases hrun
  by_cases hrefs : sh.commandRefs = 0
  . rw [hrefs, if_neg (by simp)]
    exact ⟨_, .commandsIdle hclosing, .ret ⟨rfl, rfl⟩⟩
  . rw [if_pos hrefs]
    exact ⟨v, .look trivial, .ret ⟨rfl, rfl⟩⟩

/-- The queue is emptied while the owner cleans up. -/
theorem commandDrain_spec (hrest : v.Rest) (hpin : own.pinStage = .none)
    (hclosing : v.phase.closing = true) (hidle : v.phase.idle = true)
    (hopened : v.phase.opened = true)
    : Ensures cfg lim commandDrain own v fun _ own' v' => v'.Rest ∧ own'.pinStage = .none
        ∧ v'.phase.base = { v.phase with drained := true }.base := by
  unfold commandDrain
  refine Ensures.loop (fun _ own' v' => v'.Rest ∧ own'.pinStage = .none
    ∧ v'.phase.base = v.phase.base) ⟨hrest, hpin, rfl⟩ ?_
  rintro _ own v' ⟨hrest, hpin, hbase⟩
  have hclosing' : v'.phase.closing = true := (congrArg Phase.closing hbase).trans hclosing
  have hidle' : v'.phase.idle = true := (congrArg Phase.idle hbase).trans hidle
  have hopened' : v'.phase.opened = true := (congrArg Phase.opened hbase).trans hopened
  refine Ensures.call (between_spec ⟨hrest, hpin, by simp [hclosing']⟩) ?_
  rintro _ own _ ⟨rfl, rfl⟩
  apply Ensures.bind
  refine mqReceive_spec hrest hopened' rfl (fun _ => hclosing') ?_ ?_ ?_ ?_
  . intro sh hinv hqueue
    refine ⟨_, .emptyQueue hidle', .ret ⟨hrest, hpin, ?_⟩⟩
    exact congrArg (fun phase => { phase with drained := true }) hbase
  . intro r node id taken
    refine Ensures.call (sdoCancelQueued_spec (?_ : View.place _ r = .fresh node) hpin) ?_
    . simp [View.put]
    rintro _ own _ ⟨rfl, rfl⟩
    exact .ret ⟨⟨by simp [View.put, Place.inHand], hrest.2⟩, hpin, hbase⟩
  . intro node id taken _
    exact .ret ⟨hrest, hpin, hbase⟩
  . intro command taken hsdo _
    cases command with
    | sdo r => exact absurd rfl (hsdo r)
    | _ => exact .ret ⟨hrest, hpin, hbase⟩

theorem commandFini_spec (hrest : v.Rest) (hpin : own.pinStage = .none)
    (hopened : v.phase.created = true → v.phase.opened = true)
    : Ensures cfg lim commandFini own v fun _ own' v' => v'.Rest ∧ own'.pinStage = .none
        ∧ v'.phase.idle = true ∧ v'.phase.drained = true ∧ v'.phase.pinsIdle = true := by
  -- what follows the drain
  have hafter (own₁ : Own ι κ) (v₁ : View ι) (hrest : v₁.Rest) (hpin : own₁.pinStage = .none)
      (hidle : v₁.phase.idle = true) (hdrained : v₁.phase.drained = true)
      : Ensures cfg lim
          (do
            exec (.mark .drained)
            sdoFini
            let exists_ : Bool ← exec .mqExists
            if exists_ then exec .mqDelete else pure ())
          own₁ v₁ fun _ own' v' => v'.Rest ∧ own'.pinStage = .none
            ∧ v'.phase.idle = true ∧ v'.phase.drained = true ∧ v'.phase.pinsIdle = true := by
    apply Ensures.bind
    apply Ensures.step (fun _ _ => rfl)
      (fun _ _ _ => .mark (fun _ => hidle) (fun _ => hdrained) (fun h => by simp [Point.rank] at h))
    intro _
    refine Ensures.call (sdoFini_spec hrest ?_ hidle hdrained) ?_
    . exact hpin
    rintro _ own₂ v₂ ⟨hrest, hphase, hpin⟩
    have hres : v₂.Rest ∧ own₂.pinStage = .none ∧ v₂.phase.idle = true ∧ v₂.phase.drained = true
        ∧ v₂.phase.pinsIdle = true := by
      rw [hphase]
      exact ⟨hrest, hpin, hidle, hdrained, rfl⟩
    apply Ensures.bind
    apply mqExists_spec
    intro exists_ _
    refine Ensures.ite (fun _ => ?_) (fun _ => .ret hres)
    apply Ensures.step (fun _ _ => rfl) (fun _ _ _ => .delete hres.2.2.2.1)
    intro _
    exact hres
  unfold commandFini
  apply Ensures.call commandQuiesceBegin_spec
  rintro _ own _ ⟨rfl, rfl⟩
  apply Ensures.call (commandWaitIdle_spec rfl)
  rintro _ own _ ⟨rfl, rfl⟩
  apply Ensures.bind
  apply Ensures.exec
  intro sh input exists_ own' sh' hinv hrun _
  cases hrun
  cases hmq : sh.commandMq.isSome with
  | false =>
    refine ⟨_, .noQueue rfl, ?_⟩
    exact hafter own _ hrest hpin rfl rfl
  | true =>
    refine ⟨_, .look trivial, ?_⟩
    have hcreated : v.phase.created = true := by
      by_contra hnot
      simp [hinv.commands.no_queue (by simpa using hnot)] at hmq
    refine Ensures.call (commandDrain_spec ?_ hpin rfl rfl (hopened hcreated)) ?_
    . exact hrest
    rintro _ own₁ v₁ ⟨hrest, hpin, hbase⟩
    exact hafter own₁ v₁ hrest hpin (congrArg Phase.idle hbase) (congrArg Phase.drained hbase)

theorem callbacksInit_spec (hopened : v.phase.opened = false)
    : Ensures cfg lim callbacksInit own v fun _ own' v' => own' = own
        ∧ v' = { v with phase := { v.phase with reset := true, opened := true } } := by
  unfold callbacksInit
  apply Ensures.bind
  apply Ensures.step (fun _ _ => rfl) (fun _ _ _ => .resetCallbacks hopened)
  intro _
  apply Ensures.step (fun _ _ => rfl) (fun _ _ _ => .openCallbacks rfl)
  intro _
  exact ⟨rfl, rfl⟩

theorem callbacksWaitIdle_spec
    : Ensures cfg lim callbacksWaitIdle own v fun _ own' v' => own' = own ∧ v' = v := by
  unfold callbacksWaitIdle
  refine Ensures.loop (fun _ own' v' => own' = own ∧ v' = v) ⟨rfl, rfl⟩ ?_
  rintro _ own v ⟨rfl, rfl⟩
  apply Ensures.bind
  apply Ensures.exec
  intro sh input refs own' sh' _ hrun _
  cases hrun
  refine ⟨v, .look trivial, ?_⟩
  exact Ensures.ite (fun _ => .ret ⟨rfl, rfl⟩) (fun _ => .ret ⟨rfl, rfl⟩)

/-- The owner holds no request any more. -/
theorem Inv.active_eq_none {sh : Shared ι κ} (h : Inv cfg lim own sh v)
    (hidle : v.phase.pinsIdle = true) (node : Nat) : own.sdoActive node = none := by
  by_contra hactive
  obtain ⟨r, hr⟩ := Option.ne_none_iff_exists'.mp hactive
  have hplace := (h.lists.active_iff node r).mp hr
  simp [(h.pins.pinsIdle hidle).2.2.1 r] at hplace

theorem masterFini_spec (hidle : v.phase.pinsIdle = true)
    : Ensures cfg lim masterFini own v fun _ _ v' => v' = v := by
  unfold masterFini
  apply Ensures.bind
  apply Ensures.step (fun _ _ => rfl)
    (fun _ _ hinv => .setMisc ⟨rfl, .inr (hinv.active_eq_none hidle),
      fun _ node _ => .inr (hinv.active_eq_none hidle node), fun _ _ _ _ => rfl, [], by simp, rfl⟩)
  intro _
  apply Ensures.step (fun _ _ => rfl) (fun _ _ _ => .storeLocalNodeId)
  intro _
  rfl

theorem ownerCleanup_spec (hrest : v.Rest) (hpin : own.pinStage = .none)
    (hopened : v.phase.created = true → v.phase.opened = true)
    : Ensures cfg lim ownerCleanup own v fun _ _ _ => True := by
  unfold ownerCleanup
  apply Ensures.call commandQuiesceBegin_spec
  rintro _ own _ ⟨rfl, rfl⟩
  apply Ensures.call (commandWaitIdle_spec rfl)
  rintro _ own _ ⟨rfl, rfl⟩
  apply Ensures.bind
  apply Ensures.step (fun _ _ => rfl) (fun _ _ _ => .mark (fun _ => rfl)
    (fun h => by simp [Point.rank] at h) (fun h => by simp [Point.rank] at h))
  intro _
  apply Ensures.bind
  apply Ensures.step (fun _ _ => rfl) (fun _ _ _ => .closeCallbacks rfl)
  intro _
  refine Ensures.call (commandFini_spec ?_ hpin ?_) ?_
  . exact hrest
  . exact hopened
  rintro _ own v ⟨_, _, hidle, hdrained, hpins⟩
  apply Ensures.bind
  apply Ensures.step (fun _ _ => rfl)
    (fun _ _ _ => .mark (fun _ => hidle) (fun _ => hdrained) (fun _ => hpins))
  intro _
  apply Ensures.call callbacksWaitIdle_spec
  rintro _ _ v ⟨rfl, rfl⟩
  apply Ensures.call (masterFini_spec hpins)
  rintro _ own v rfl
  apply Ensures.bind
  apply Ensures.step (fun _ _ => rfl)
    (fun _ _ hinv => .setMisc
      (.of_same rfl (.inr (hinv.active_eq_none hpins)) rfl rfl ⟨rfl, rfl⟩))
  intro _
  apply Ensures.step (fun _ _ => rfl)
    (fun _ _ _ => .mark (fun _ => hidle) (fun _ => hdrained) (fun _ => hpins))
  exact fun _ => trivial

/-- The owner is about to enter its loop, or to wait for an event again. -/
structure Waits (own : Own ι κ) (v : View ι) : Prop where
  rest : v.Rest
  pinStage : own.pinStage = .none
  opened : v.phase.opened = true
  closing : v.phase.closing = false
  target : v.phase.target = none
  old : v.phase.old = 0
  quiet : ∀ node, node ≠ 0 → node ≤ numNodes → v.Quiet own node

theorem ownerTurn_spec (hwaits : Waits own v)
    : Ensures cfg lim (ownerTurn cfg) own v fun go own' v' => v'.Rest ∧ own'.pinStage = .none
        ∧ v'.phase.opened = true ∧ (go = true → Waits own' v') := by
  unfold ownerTurn
  apply Ensures.call (between_spec (.of_target hwaits.rest hwaits.pinStage hwaits.target))
  rintro _ own _ ⟨rfl, rfl⟩
  apply Ensures.bind
  apply Ensures.exec
  intro sh input stop own' sh' hinv hrun _
  cases hrun
  refine ⟨_, .receive hwaits.rest hwaits.closing rfl hwaits.old hwaits.quiet, ?_⟩
  have hdepth : sh.queue.length ≤ cfg.commandQueueDepth := hinv.commands.queue_length
  apply Ensures.bind
  apply Ensures.pick
  intro failed
  refine Ensures.ite
    (fun _ => .ret ⟨hwaits.rest, hwaits.pinStage, hwaits.opened, by simp⟩) (fun _ => ?_)
  refine Ensures.call (drainLoop_spec (.of_target hwaits.rest hwaits.pinStage rfl)) ?_
  rintro _ own₁ v₁ ⟨hrest₁, hpin₁, hphase₁, _⟩
  have hopened₁ : v₁.phase.opened = true := by rw [hphase₁, ← hwaits.opened]
  apply Ensures.bind
  apply Ensures.pick
  intro failed
  refine Ensures.ite (fun _ => .ret ⟨hrest₁, hpin₁, hopened₁, by simp⟩) (fun _ => ?_)
  refine Ensures.call (commandDispatch_spec (.of_target hrest₁ hpin₁ (by rw [hphase₁])) hopened₁ ?_) ?_
  . rw [hphase₁]
    exact hdepth
  rintro _ own₂ v₂ ⟨hcalm, hbase, hzero⟩
  apply Ensures.call (drainLoop_spec hcalm)
  rintro _ own₃ v₃ ⟨hrest₃, hpin₃, hphase₃, _⟩
  apply Ensures.call (sdoReap_spec hrest₃ hpin₃ (by rw [hphase₃]; exact hzero) (by rw [hphase₃]))
  rintro _ own₄ v₄ ⟨hrest₄, hphase₄, hpin₄, hquiet⟩
  have hopened₄ : v₄.phase.opened = true := by
    rw [hphase₄, hphase₃]
    exact (congrArg Phase.opened hbase).trans hopened₁
  have hclosing : v₄.phase.closing = false := by
    rw [hphase₄, hphase₃]
    refine (congrArg Phase.closing hbase).trans ?_
    rw [hphase₁]
    exact hwaits.closing
  exact .ret ⟨hrest₄, hpin₄, hopened₄, fun _ =>
    ⟨hrest₄, hpin₄, hopened₄, hclosing, by rw [hphase₄, hphase₃], by rw [hphase₄, hphase₃]; exact hzero,
      hquiet⟩⟩

/-- How the owner starts. -/
structure Fresh (own : Own ι κ) (v : View ι) : Prop where
  rest : v.Rest
  pinStage : own.pinStage = .none
  active : ∀ node, own.sdoActive node = none
  fifo : ∀ node, v.fifo node = []
  opened : v.phase.opened = false
  created : v.phase.created = false
  closing : v.phase.closing = false
  target : v.phase.target = none
  old : v.phase.old = 0

theorem setMisc_fresh_spec {f : Misc κ → Misc κ} (hstep : MiscStep lim own (f own.misc))
    : Ensures cfg lim (exec (.setMisc f : Op ι κ)) own v fun _ own' v' =>
        own' = { own with misc := f own.misc } ∧ v' = v := by
  apply Ensures.step (fun _ _ => rfl) (fun _ _ _ => .setMisc hstep)
  intro _
  exact ⟨rfl, rfl⟩

theorem ownerInit_spec (hfresh : Fresh own v)
    : Ensures cfg lim ownerInit own v fun ready own' v' => v'.Rest ∧ own'.pinStage = .none
        ∧ (v'.phase.created = true → v'.phase.opened = true) ∧ (ready = true → Waits own' v') := by
  -- what follows the configuration of the Master
  have hafter (configured : Bool) (own₁ : Own ι κ) (v₁ : View ι) (hrest : v₁.Rest)
      (hpin : own₁.pinStage = .none) (hfifo : ∀ node, v₁.fifo node = [])
      (hphase : v₁.phase = { v.phase with reset := true, opened := true })
      : Ensures cfg lim
          (do
            let ready : Bool ← exec .pick
            if !ready then
              pure false
            else do
              let own : Own ι κ ← exec .own
              if configured then exec (.storeLocalNodeId own.misc.localId) else pure ()
              let queue : Bool ← exec .pick
              if !queue then
                pure false
              else do
                exec .mqCreate
                drainLoop
                exec .pick)
          own₁ v₁ fun ready own' v' => v'.Rest ∧ own'.pinStage = .none
            ∧ (v'.phase.created = true → v'.phase.opened = true)
            ∧ (ready = true → Waits own' v') := by
    have hopened₁ : v₁.phase.opened = true := by rw [hphase]
    have hcreated₁ : v₁.phase.created = false := by
      rw [hphase]
      exact hfresh.created
    have htarget₁ : v₁.phase.target = none := by
      rw [hphase]
      exact hfresh.target
    have hclosing₁ : v₁.phase.closing = false := by
      rw [hphase]
      exact hfresh.closing
    have hold₁ : v₁.phase.old = 0 := by
      rw [hphase]
      exact hfresh.old
    have hcreate : Ensures cfg lim
        (do
          let queue : Bool ← exec .pick
          if !queue then
            pure false
          else do
            exec .mqCreate
            drainLoop
            exec .pick)
        own₁ v₁ fun ready own' v' => v'.Rest ∧ own'.pinStage = .none
          ∧ (v'.phase.created = true → v'.phase.opened = true) ∧ (ready = true → Waits own' v') := by
      apply Ensures.bind
      apply Ensures.pick
      intro queue
      refine Ensures.ite (fun _ => .ret ⟨hrest, hpin, fun _ => hopened₁, by simp⟩) (fun _ => ?_)
      apply Ensures.bind
      apply Ensures.step (fun _ _ => rfl) (fun _ _ _ => .create hcreated₁)
      intro _
      refine Ensures.call (drainLoop_spec (.of_target hrest hpin htarget₁)) ?_
      rintro _ own₂ v₂ ⟨hrest₂, hpin₂, hphase₂, hfifo₂⟩
      apply Ensures.pick
      intro ready
      have hopened₂ : v₂.phase.opened = true := by rw [hphase₂, ← hopened₁]
      have hclosing₂ : v₂.phase.closing = false := by rw [hphase₂, ← hclosing₁]
      have hold₂ : v₂.phase.old = 0 := by rw [hphase₂, ← hold₁]
      exact ⟨hrest₂, hpin₂, fun _ => hopened₂, fun _ => ⟨hrest₂, hpin₂, hopened₂, hclosing₂,
        by rw [hphase₂], hold₂, fun node _ _ => .inr (.inr (.inr (.inl (hfifo₂ node (hfifo node)))))⟩⟩
    apply Ensures.bind
    apply Ensures.pick
    intro ready
    refine Ensures.ite (fun _ => .ret ⟨hrest, hpin, fun _ => hopened₁, by simp⟩) (fun _ => ?_)
    apply Ensures.bind
    apply Ensures.readOwn
    intro _ _
    refine Ensures.ite (fun _ => ?_) (fun _ => hcreate)
    apply Ensures.bind
    apply Ensures.step (fun _ _ => rfl) (fun _ _ _ => .storeLocalNodeId)
    intro _
    exact hcreate
  have hrefuse : v.Rest ∧ own.pinStage = .none ∧ (v.phase.created = true → v.phase.opened = true)
      ∧ ((false : Bool) = true → Waits own v) :=
    ⟨hfresh.rest, hfresh.pinStage, by simp [hfresh.created], by simp⟩
  unfold ownerInit
  apply Ensures.bind
  apply Ensures.pick
  intro created
  refine Ensures.ite (fun _ => .ret hrefuse) (fun _ => ?_)
  apply Ensures.call (callbacksInit_spec hfresh.opened)
  rintro _ own _ ⟨rfl, rfl⟩
  apply Ensures.bind
  apply Ensures.pick
  intro network
  refine Ensures.ite (fun _ => .ret ⟨hfresh.rest, hfresh.pinStage, fun _ => rfl, by simp⟩)
    (fun _ => ?_)
  apply Ensures.call
    (setMisc_fresh_spec (.of_same rfl (.inr hfresh.active) rfl rfl ⟨rfl, rfl⟩))
  rintro _ _ _ ⟨rfl, rfl⟩
  apply Ensures.bind
  apply Ensures.pick
  intro configured
  refine Ensures.ite (fun _ => ?_) (fun _ => ?_)
  . refine Ensures.call (setMisc_fresh_spec (.of_same rfl (.inr ?_) rfl rfl ⟨rfl, rfl⟩)) ?_
    . exact hfresh.active
    rintro _ _ _ ⟨rfl, rfl⟩
    refine Ensures.call (drainLoop_spec (.of_target hfresh.rest hfresh.pinStage hfresh.target)) ?_
    rintro _ own₁ v₁ ⟨hrest₁, hpin₁, hphase₁, hfifo₁⟩
    refine hafter configured own₁ v₁ hrest₁ hpin₁ (fun node => hfifo₁ node (hfresh.fifo node)) ?_
    rw [hphase₁, ← hfresh.target]
  . exact hafter configured _ _ hfresh.rest hfresh.pinStage hfresh.fifo rfl

theorem ownerEntry_spec (hfresh : Fresh own v)
    : Ensures cfg lim (ownerEntry cfg) own v fun _ _ _ => True := by
  unfold ownerEntry
  apply Ensures.call (ownerInit_spec hfresh)
  rintro ready own v ⟨hrest, hpin, hopened, hwaits⟩
  refine Ensures.ite (fun hready => ?_) (fun _ => ownerCleanup_spec hrest hpin hopened)
  have hwaits := hwaits hready
  apply Ensures.bind
  apply Ensures.step (fun _ _ => rfl) (fun _ _ _ => .mark (fun h => by simp [Point.rank] at h)
    (fun h => by simp [Point.rank] at h) (fun h => by simp [Point.rank] at h))
  intro _
  apply Ensures.call commandAdmissionOpen_spec
  rintro _ _ v ⟨rfl, rfl⟩
  apply Ensures.bind
  refine Ensures.loop (fun _ own v => Waits own v)
    ⟨hwaits.rest, hwaits.pinStage, hwaits.opened, hwaits.closing, hwaits.target, hwaits.old,
      hwaits.quiet⟩ ?_
  intro _ own v hwaits
  apply Ensures.call (ownerTurn_spec hwaits)
  rintro go own v ⟨hrest, hpin, hopened, hwaits⟩
  refine Ensures.ite (fun hgo => .ret (hwaits hgo)) (fun _ => .ret ?_)
  exact ownerCleanup_spec hrest hpin fun _ => hopened

end LelyRtt
