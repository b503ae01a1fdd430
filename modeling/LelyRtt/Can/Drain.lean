import LelyRtt.Can.Rx
import LelyRtt.Conc.Wp

/-!
This module contains the proof that no frame is left in the FIFO of the driver: an owner that waits
without `RX_READY` knows that the indication of each frame in the FIFO is still to come.
-/

namespace LelyRtt.Can

open Conc

/-- What the owner knows about the receive path. -/
structure View where
  installed : Bool := false
  registered : Bool := false
  quiescing : Bool := false
  /-- The frames in the FIFO will wake the owner. -/
  settled : Bool := false
  /-- The message that the owner is about to offer. -/
  toOffer : Option CanMsg := none

/-- Indications that start now reach the owner. -/
def View.Live (v : View) : Prop :=
  v.installed = true ∧ v.registered = true ∧ v.quiescing = false

structure Inv (cfg : CanConfig) (own : Own) (sh : Shared) (v : View) : Prop where
  order : own.read ++ sh.fifo = sh.arrived
  length : sh.indications.length = sh.arrived.length
  offered : own.offered ++ v.toOffer.toList = own.read.filterMap (fromRt cfg)
  installed : sh.rxIndicate = v.installed
  registered : sh.registered = v.registered
  quiescing : sh.callbackQuiescing = v.quiescing
  initialized : sh.eventInitialized = true
  live : v.settled = true → v.Live
  settled : v.settled = true → sh.events.rxReady = false →
    ∀ i indication, own.read.length ≤ i → sh.indications[i]? = some indication → indication.Coming

/-- How an operation changes what the owner knows. -/
inductive Ghost (cfg : CanConfig) (sh : Shared) (v : View) : (o : Op) → o.Res → View → Prop
  | work {work b} : Ghost cfg sh v (.work work) b v
  | callbacksInit : v.settled = false → Ghost cfg sh v .callbacksInit () { v with quiescing := false }
  | registryAdd : v.settled = false → Ghost cfg sh v .registryAdd () { v with registered := true }
  | install {ok} : v.settled = false →
      Ghost cfg sh v (.setRxIndicate true) ok { v with installed := ok || v.installed }
  | uninstall {ok} : v.settled = false →
      Ghost cfg sh v (.setRxIndicate false) ok { v with installed := !ok && v.installed }
  | read {frame} : v.toOffer = none →
      Ghost cfg sh v .read (some frame) { v with toOffer := fromRt cfg frame }
  | readNone : v.Live → Ghost cfg sh v .read none { v with settled := true }
  | onMsg {msg ok} : v.toOffer = some msg → Ghost cfg sh v (.onMsg msg) ok { v with toOffer := none }
  | sendRxReady : v.Live → Ghost cfg sh v .sendRxReady () { v with settled := true }
  | recv {received} : v.settled = true → v.toOffer = none →
      (∀ events, received = .events events → events.rxReady = false) → Ghost cfg sh v .recv received v
  | recvRx {events} : v.settled = true → v.toOffer = none →
      Ghost cfg sh v .recv (.events events) { v with settled := false }
  | quiesceBegin : Ghost cfg sh v .quiesceBegin () { v with quiescing := true, settled := false }
  | registryRemove : v.settled = false →
      Ghost cfg sh v .registryRemove () { v with registered := false }

variable {cfg : CanConfig} {own own' : Own} {sh sh' : Shared} {v v' : View}

/-! ### The driver keeps the invariant -/

theorem Indication.coming_next {indication : Indication} (hcoming : indication.Coming)
    (hinstalled : sh.rxIndicate = true) (hregistered : sh.registered = true)
    (hquiescing : sh.callbackQuiescing = false) (hinitialized : sh.eventInitialized = true)
    : (indication.next sh).Coming ∨ indication.next sh = .sent := by
  cases indication <;> simp_all [Indication.next, Indication.Coming]

@[simp]
theorem indicate_fields (sh : Shared) (i : Nat)
    : (sh.indicate i).fifo = sh.fifo ∧ (sh.indicate i).arrived = sh.arrived
      ∧ (sh.indicate i).rxIndicate = sh.rxIndicate ∧ (sh.indicate i).registered = sh.registered
      ∧ (sh.indicate i).callbackQuiescing = sh.callbackQuiescing
      ∧ (sh.indicate i).eventInitialized = sh.eventInitialized
      ∧ (sh.indicate i).indications
        = sh.indications.set i ((sh.indications.getD i .silent).next sh) := by
  unfold Shared.indicate
  dsimp only
  split <;> simp [Shared.raise]

/-- An indication that does not raise the event is not sent now. -/
theorem indicate_rxReady {i : Nat} (h : (sh.indicate i).events.rxReady = false)
    : sh.events.rxReady = false ∧ ((sh.indications.getD i .silent).next sh = .sent →
      sh.indications.getD i .silent = .sent) := by
  unfold Shared.indicate at h
  dsimp only at h
  split at h
  next => simp [Shared.raise] at h
  next hsent =>
    exact ⟨h, fun hnext => Decidable.byContradiction fun hne => hsent ⟨hnext, hne⟩⟩

theorem Inv.append (h : Inv cfg own sh v) (frame : RtCanMsg) : Inv cfg own (sh.append frame) v where
  order := by
    rw [Shared.append]
    dsimp only
    rw [← List.append_assoc, h.order]
  length := by simp [Shared.append, h.length]
  offered := h.offered
  installed := h.installed
  registered := h.registered
  quiescing := h.quiescing
  initialized := h.initialized
  live := h.live
  settled := by
    intro hsettled hevent i indication hi hget
    have hold := h.settled hsettled hevent i indication hi
    rw [Shared.append] at hget
    dsimp only at hget
    rw [List.getElem?_append] at hget
    split at hget
    next => exact hold hget
    next =>
      obtain ⟨_, rfl⟩ : _ ∧ Indication.appended = indication := by
        simpa [List.getElem?_singleton] using hget
      decide

theorem Inv.indicate (h : Inv cfg own sh v) (i : Nat) : Inv cfg own (sh.indicate i) v where
  order := by simpa using h.order
  length := by simpa using h.length
  offered := h.offered
  installed := by simpa using h.installed
  registered := by simpa using h.registered
  quiescing := by simpa using h.quiescing
  initialized := by simpa using h.initialized
  live := h.live
  settled := by
    intro hsettled hevent j indication hj hget
    obtain ⟨hevent, hsent⟩ := indicate_rxReady hevent
    have hold := h.settled hsettled hevent
    obtain ⟨hinstalled, hregistered, hquiescing⟩ := h.live hsettled
    simp only [indicate_fields, List.getElem?_set] at hget
    split at hget
    next heq =>
      subst heq
      split at hget
      next hlt =>
        obtain ⟨old, hold'⟩ : ∃ old, sh.indications[i]? = some old :=
          ⟨_, List.getElem?_eq_getElem hlt⟩
        have hgetD : sh.indications.getD i .silent = old := by
          rw [List.getD_eq_getElem?_getD, hold', Option.getD_some]
        have hcoming := hold i old hj hold'
        rw [hgetD] at hget hsent
        cases hget
        cases Indication.coming_next hcoming (h.installed.trans hinstalled)
          (h.registered.trans hregistered) (h.quiescing.trans hquiescing) h.initialized with
        | inl hcoming' => exact hcoming'
        | inr hnext => exact absurd (hsent hnext) hcoming.1
      next => cases hget
    next => exact hold j indication hj hget

theorem Inv.raise (h : Inv cfg own sh v) {events : Events} (hevents : events.rxReady = false)
    : Inv cfg own (sh.raise events) v where
  order := h.order
  length := h.length
  offered := h.offered
  installed := h.installed
  registered := h.registered
  quiescing := h.quiescing
  initialized := h.initialized
  live := h.live
  settled := by
    intro hsettled hevent
    exact h.settled hsettled (by simpa [Shared.raise, hevents] using hevent)

theorem Inv.env (h : Inv cfg own sh v) (hstep : EnvStep sh sh') : Inv cfg own sh' v := by
  cases hstep with
  | append frame => exact h.append frame
  | indicate i => exact h.indicate i
  | raise events hevents => exact h.raise hevents

/-! ### The operations of the owner keep the invariant -/

theorem Inv.read (h : Inv cfg own sh v) {frame : RtCanMsg} {rest : List RtCanMsg}
    (hfifo : sh.fifo = frame :: rest) (hoffer : v.toOffer = none)
    : Inv cfg { own with read := own.read ++ [frame] } { sh with fifo := rest }
      { v with toOffer := fromRt cfg frame } where
  order := by
    have horder := h.order
    rw [hfifo] at horder
    simpa using horder
  length := h.length
  offered := by
    have hoffered := h.offered
    rw [hoffer] at hoffered
    simp only [Option.toList_none, List.append_nil] at hoffered
    rw [hoffered, List.filterMap_append]
    cases hconv : fromRt cfg frame <;> simp [hconv]
  installed := h.installed
  registered := h.registered
  quiescing := h.quiescing
  initialized := h.initialized
  live := h.live
  settled := by
    intro hsettled hevent i indication hi
    rw [List.length_append, List.length_singleton] at hi
    exact h.settled hsettled hevent i indication (by omega)

/-- Nothing is left in the FIFO. -/
theorem Inv.readNone (h : Inv cfg own sh v) (hfifo : sh.fifo = []) (hlive : v.Live)
    : Inv cfg own sh { v with settled := true } where
  order := h.order
  length := h.length
  offered := h.offered
  installed := h.installed
  registered := h.registered
  quiescing := h.quiescing
  initialized := h.initialized
  live := fun _ => hlive
  settled := by
    intro _ _ i indication hi hget
    have horder := h.order
    rw [hfifo, List.append_nil] at horder
    have hlt : i < sh.indications.length := (List.getElem?_eq_some_iff.mp hget).1
    rw [h.length, ← horder] at hlt
    omega

theorem Inv.sendRxReady (h : Inv cfg own sh v) (hlive : v.Live)
    : Inv cfg own (sh.raise { rxReady := true }) { v with settled := true } where
  order := h.order
  length := h.length
  offered := h.offered
  installed := h.installed
  registered := h.registered
  quiescing := h.quiescing
  initialized := h.initialized
  live := fun _ => hlive
  settled := by
    intro _ hevent
    simp [Shared.raise] at hevent

/-- The owner consumes its events. -/
theorem Inv.recv (h : Inv cfg own sh v) (hevents : v.settled = true → sh.events.rxReady = false)
    : Inv cfg own { sh with events := {} } v where
  order := h.order
  length := h.length
  offered := h.offered
  installed := h.installed
  registered := h.registered
  quiescing := h.quiescing
  initialized := h.initialized
  live := h.live
  settled := fun hsettled _ => h.settled hsettled (hevents hsettled)

/-- Outside of the loop nothing is known about the FIFO. -/
theorem Inv.unsettle (h : Inv cfg own sh v) : Inv cfg own sh { v with settled := false } where
  order := h.order
  length := h.length
  offered := h.offered
  installed := h.installed
  registered := h.registered
  quiescing := h.quiescing
  initialized := h.initialized
  live := by simp
  settled := by simp

/-- The flags that the driver looks at change while nothing is known about the FIFO. -/
theorem Inv.flags (h : Inv cfg own sh v) (hsettled : v.settled = false)
    {rxIndicate registered callbackQuiescing installed registered' quiescing : Bool}
    (hinstalled : rxIndicate = installed) (hregistered : registered = registered')
    (hquiescing : callbackQuiescing = quiescing)
    : Inv cfg own
        {
          sh with
            rxIndicate := rxIndicate
            registered := registered
            callbackQuiescing := callbackQuiescing
        }
        { v with installed := installed, registered := registered', quiescing := quiescing } where
  order := h.order
  length := h.length
  offered := h.offered
  installed := hinstalled
  registered := hregistered
  quiescing := hquiescing
  initialized := h.initialized
  live := by simp [hsettled]
  settled := by simp [hsettled]

theorem Inv.onMsg (h : Inv cfg own sh v) {msg : CanMsg} (hoffer : v.toOffer = some msg)
    : Inv cfg { own with offered := own.offered ++ [msg] } sh { v with toOffer := none } where
  order := h.order
  length := h.length
  offered := by
    have hoffered := h.offered
    rw [hoffer] at hoffered
    simpa using hoffered
  installed := h.installed
  registered := h.registered
  quiescing := h.quiescing
  initialized := h.initialized
  live := h.live
  settled := h.settled

theorem run_recv_events {input : Input} {events : Events}
    (h : Op.recv.run input own sh = some (.events events, own', sh'))
    : events = sh.events ∧ own' = own ∧ sh' = { sh with events := {} } := by
  simp only [Op.run] at h
  split at h
  next => simp at h
  next =>
    split at h
    next => simp at h
    next =>
      split at h
      next => simp at h
      next =>
        cases h
        exact ⟨rfl, rfl, rfl⟩

theorem run_recv_other {input : Input} {received : Received}
    (h : Op.recv.run input own sh = some (received, own', sh'))
    (hreceived : ∀ events, received ≠ .events events) : own' = own ∧ sh' = sh := by
  simp only [Op.run] at h
  split at h
  next =>
    cases h
    exact ⟨rfl, rfl⟩
  next =>
    split at h
    next =>
      cases h
      exact ⟨rfl, rfl⟩
    next =>
      split at h
      next => simp at h
      next =>
        cases h
        exact absurd rfl (hreceived _)

theorem Inv.exec {o : Op} {input : Input} {b : o.Res} (h : Inv cfg own sh v)
    (hrun : o.run input own sh = some (b, own', sh')) (hghost : Ghost cfg sh v o b v')
    : Inv cfg own' sh' v' := by
  cases hghost with
  | work =>
    cases hrun
    exact h
  | callbacksInit hsettled =>
    cases hrun
    exact h.flags hsettled h.installed h.registered rfl
  | registryAdd hsettled =>
    cases hrun
    exact h.flags hsettled h.installed rfl h.quiescing
  | install hsettled =>
    cases hrun
    split
    next hok => exact h.flags hsettled (by simp [hok]) h.registered h.quiescing
    next hok => exact h.flags hsettled (by simp [hok, h.installed]) h.registered h.quiescing
  | uninstall hsettled =>
    cases hrun
    split
    next hok => exact h.flags hsettled (by simp [hok]) h.registered h.quiescing
    next hok => exact h.flags hsettled (by simp [hok, h.installed]) h.registered h.quiescing
  | registryRemove hsettled =>
    cases hrun
    exact h.flags hsettled h.installed rfl h.quiescing
  | quiesceBegin =>
    cases hrun
    exact h.unsettle.flags rfl h.installed h.registered rfl
  | @read frame hoffer =>
    cases hfifo : sh.fifo with
    | nil => simp [Op.run, hfifo] at hrun
    | cons first rest =>
      simp only [Op.run, hfifo, List.head?_cons, List.tail_cons, Option.toList_some, Option.some.injEq,
        Prod.mk.injEq] at hrun
      obtain ⟨rfl, rfl, rfl⟩ := hrun
      exact h.read hfifo hoffer
  | readNone hlive =>
    cases hfifo : sh.fifo with
    | nil =>
      simp only [Op.run, hfifo, List.head?_nil, List.tail_nil, Option.toList_none, List.append_nil,
        Option.some.injEq, Prod.mk.injEq, true_and] at hrun
      obtain ⟨rfl, rfl⟩ := hrun
      have hinv := h.readNone hfifo hlive
      rw [← hfifo]
      exact hinv
    | cons first rest => simp [Op.run, hfifo] at hrun
  | onMsg hoffer =>
    cases hrun
    exact h.onMsg hoffer
  | sendRxReady hlive =>
    cases hrun
    exact h.sendRxReady hlive
  | @recv received hsettled hoffer hevents =>
    cases received with
    | events events =>
      obtain ⟨rfl, rfl, rfl⟩ := run_recv_events hrun
      exact h.recv fun _ => hevents _ rfl
    | _ =>
      obtain ⟨rfl, rfl⟩ := run_recv_other hrun (by simp)
      exact h
  | recvRx hsettled hoffer =>
    obtain ⟨rfl, rfl, rfl⟩ := run_recv_events hrun
    exact h.unsettle.recv (by simp)

/-- The program logic of the receive path. -/
def logic (cfg : CanConfig) : Logic machine View where
  inv := Inv cfg
  ghost o _ sh b v v' := Ghost cfg sh v o b v'
  inv_env h hstep := h.env hstep
  inv_exec h hexec hghost := hexec.elim fun _ hrun => h.exec hrun hghost

/-! ### The program of the owner -/

section

variable {α : Type} {Q : α → Own → View → Prop}

theorem wp_exec {o : Op} {Q : o.Res → Own → View → Prop}
    (h : ∀ sh input b own' sh', o.run input own sh = some (b, own', sh') →
      ∃ v', Ghost cfg sh v o b v' ∧ Q b own' v') : (logic cfg).wp (exec o) Q own v := by
  unfold exec
  rw [Logic.wp_op]
  intro sh _ b own' sh' hexec
  obtain ⟨input, hrun⟩ := hexec
  obtain ⟨v', hghost, hQ⟩ := h sh input b own' sh' hrun
  exact ⟨v', hghost, by simpa using hQ⟩

theorem wp_work {work : Work} {Q : Bool → Own → View → Prop} (h : ∀ b, Q b own v)
    : (logic cfg).wp (exec (.work work)) Q own v := by
  apply wp_exec
  intro sh input b own' sh' hrun
  cases hrun
  exact ⟨v, .work, h _⟩

theorem wp_workAll {works : List Work} {Q : Bool → Own → View → Prop} (h : ∀ b, Q b own v)
    : (logic cfg).wp (workAll works) Q own v := by
  induction works with
  | nil => simpa [workAll] using h true
  | cons work rest ih =>
    apply Logic.wp_call _ (wp_work (Q := fun _ own' v' => own' = own ∧ v' = v) fun _ => ⟨rfl, rfl⟩)
    rintro ok _ _ ⟨rfl, rfl⟩
    split
    . exact ih
    . simpa using h false

end

/-- The owner knows that every frame in the FIFO will wake it, and has nothing to offer. -/
def View.Ready (v : View) : Prop :=
  v.Live ∧ v.settled = true ∧ v.toOffer = none

/-- What the owner knows within a batch. -/
def View.Draining (v : View) : Prop :=
  v.Live ∧ v.toOffer = none

theorem drainFrame_spec {count : Nat} (h : v.Draining) (hcount : count ≤ cfg.rxBatch)
    : (logic cfg).wp (drainFrame cfg count) (fun
        | .inl count => fun _ v => v.Draining ∧ count ≤ cfg.rxBatch
        | .inr count => fun _ v => v.Draining ∧ (v.settled = true ∨ count = cfg.rxBatch)) own v := by
  obtain ⟨hlive, hoffer⟩ := h
  unfold drainFrame
  split
  next hlt =>
    have hread : (logic cfg).wp (exec .read) (fun
        | none => fun _ v' => v'.Draining ∧ v'.settled = true
        | some frame => fun _ v' => v'.Live ∧ v'.toOffer = fromRt cfg frame) own v := by
      apply wp_exec
      intro sh input b own' sh' hrun
      cases b with
      | none => exact ⟨_, .readNone hlive, ⟨hlive, hoffer⟩, rfl⟩
      | some frame => exact ⟨_, .read hoffer, hlive, rfl⟩
    apply Logic.wp_call _ hread
    intro frame own' v' hframe
    cases frame with
    | none =>
      rw [Logic.wp_pure]
      exact ⟨hframe.1, .inl hframe.2⟩
    | some frame =>
      obtain ⟨hlive', hoffer'⟩ := hframe
      cases hconv : fromRt cfg frame with
      | none =>
        simp only [hconv]
        rw [Logic.wp_pure]
        exact ⟨⟨hlive', hoffer'.trans hconv⟩, hlt⟩
      | some msg =>
        simp only [hconv]
        have honMsg : (logic cfg).wp (exec (.onMsg msg)) (fun _ _ v'' => v''.Draining) own' v' := by
          apply wp_exec
          intro sh input b own'' sh' hrun
          exact ⟨_, .onMsg (hoffer'.trans hconv), hlive', rfl⟩
        apply Logic.wp_call _ honMsg
        intro _ own'' v'' hdraining
        rw [Logic.wp_pure]
        exact ⟨hdraining, hlt⟩
  next hge =>
    rw [Logic.wp_pure]
    exact ⟨⟨hlive, hoffer⟩, .inr (by omega)⟩

/-- A batch ends because the FIFO is empty, or the owner wakes itself for the next one. -/
theorem drainRx_spec (h : v.Draining) : (logic cfg).wp (drainRx cfg) (fun _ _ v' => v'.Ready) own v := by
  have hloop : (logic cfg).wp (Prog.loop 0 (drainFrame cfg))
      (fun count _ v' => v'.Draining ∧ (v'.settled = true ∨ count = cfg.rxBatch)) own v :=
    Logic.wp_loop _ (fun count _ v' => v'.Draining ∧ count ≤ cfg.rxBatch) ⟨h, Nat.zero_le _⟩
      fun _ _ _ hcount => Logic.wp_mono _ _ (fun x _ _ h => by cases x <;> exact h) _ _
        (drainFrame_spec hcount.1 hcount.2)
  apply Logic.wp_call _ hloop
  intro count own' v' hend
  obtain ⟨⟨hlive, hoffer⟩, hsettled⟩ := hend
  split
  next =>
    apply wp_exec
    intro sh input b own'' sh' hrun
    exact ⟨_, .sendRxReady hlive, hlive, rfl, hoffer⟩
  next hne =>
    rw [Logic.wp_pure]
    exact ⟨hlive, hsettled.resolve_right hne, hoffer⟩

/-- Before the FIFO is probed for the first time. -/
def View.Starting (v : View) : Prop :=
  v.settled = false ∧ v.toOffer = none

theorem canInit_spec (h : v.Starting) (hquiescing : v.quiescing = false)
    : (logic cfg).wp (canInit cfg) (fun ok _ v' => ok = true → v'.Draining) own v := by
  apply Logic.wp_call _ (wp_work (Q := fun _ _ v' => v = v') fun _ => rfl)
  rintro setup own₁ _ rfl
  split
  . simp
  . have hadd : (logic cfg).wp (exec .registryAdd) (fun _ _ v' => { v with registered := true } = v')
        own₁ v := by
      apply wp_exec
      intro sh input b own' sh' hrun
      exact ⟨_, .registryAdd h.1, rfl⟩
    apply Logic.wp_call _ hadd
    rintro _ own₂ _ rfl
    have hinstall : (logic cfg).wp (exec (.setRxIndicate true))
        (fun (ok : Bool) _ v' => { v with registered := true, installed := ok || v.installed } = v')
        own₂ { v with registered := true } := by
      apply wp_exec
      intro sh input b own' sh' hrun
      exact ⟨_, .install h.1, rfl⟩
    apply Logic.wp_call _ hinstall
    rintro installed own₃ _ rfl
    split
    . simp
    next hok =>
      apply wp_workAll
      intro _ _
      have hok : installed = true := by simpa using hok
      exact ⟨⟨by simp [hok], rfl, hquiescing⟩, h.2⟩

theorem ownerInit_spec (h : v.Starting)
    : (logic cfg).wp (ownerInit cfg) (fun ok _ v' => ok = true → v'.Ready) own v := by
  apply Logic.wp_call _ (wp_workAll (Q := fun _ _ v' => v = v') fun _ => rfl)
  rintro created own₁ _ rfl
  split
  . simp
  have hcallbacks : (logic cfg).wp (exec .callbacksInit)
      (fun _ _ v' => v'.Starting ∧ v'.quiescing = false) own₁ v := by
    apply wp_exec
    intro sh input b own' sh' hrun
    exact ⟨_, .callbacksInit h.1, h, rfl⟩
  apply Logic.wp_call _ hcallbacks
  intro _ own₂ v₂ h₂
  apply Logic.wp_call _ (wp_work (Q := fun _ _ v' => v₂ = v') fun _ => rfl)
  rintro timer own₃ _ rfl
  split
  . simp
  apply Logic.wp_call _ (canInit_spec h₂.1 h₂.2)
  intro can own₄ v₄ h₄
  split
  . simp
  next hcan =>
    have hdraining := h₄ (by simpa using hcan)
    apply Logic.wp_call _ (wp_work (Q := fun _ _ v' => v₄ = v') fun _ => rfl)
    rintro net own₅ _ rfl
    split
    . simp
    apply Logic.wp_call _ (wp_work (Q := fun _ _ v' => v₄ = v') fun _ => rfl)
    rintro _ own₆ _ rfl
    apply Logic.wp_call _ (wp_workAll (Q := fun _ _ v' => v₄ = v') fun _ => rfl)
    rintro master own₇ _ rfl
    split
    . simp
    apply Logic.wp_call _ (drainRx_spec hdraining)
    intro _ own₈ v₈ h₈
    apply Logic.wp_call _ (wp_work (Q := fun _ _ v' => v'.Ready) fun _ => h₈)
    intro _ own₉ v₉ h₉
    apply Logic.wp_call _ (wp_work (Q := fun _ _ v' => v'.Ready) fun _ => h₉)
    intro fine own₁₀ v₁₀ h₁₀
    split
    . simp
    apply Logic.wp_call _ (wp_work (Q := fun _ _ v' => v'.Ready) fun _ => h₁₀)
    intro _ own₁₁ v₁₁ h₁₁
    apply Logic.wp_call _ (wp_work (Q := fun _ _ v' => v'.Ready) fun _ => h₁₁)
    intro _ own₁₂ v₁₂ h₁₂
    rw [Logic.wp_pure]
    exact fun _ => h₁₂

/-- Nothing behind the receive path changes what the owner knows about it. -/
theorem ownerWork_spec {events : Events} (h : v.Ready)
    : (logic cfg).wp (ownerWork cfg events) (fun _ _ v' => v'.Ready) own v := by
  have hwork {work : Work} {own : Own} {v : View} (h : v.Ready)
      : (logic cfg).wp (exec (.work work)) (fun _ _ v' => v'.Ready) own v := wp_work fun _ => h
  have hstatus {condition : Bool} {own : Own} {v : View} (h : v.Ready)
      : (logic cfg).wp (processStatusIf condition) (fun _ _ v' => v'.Ready) own v := by
    unfold processStatusIf
    split
    . exact hwork h
    . simpa using h
  have hcommands {own : Own} {v : View} (h : v.Ready)
      : (logic cfg).wp (ownerCommands cfg) (fun _ _ v' => v'.Ready) own v := by
    unfold ownerCommands
    split
    . refine Logic.wp_call _ (hwork h) fun _ own₁ v₁ h₁ => ?_
      refine Logic.wp_call _ (hwork h₁) fun _ own₂ v₂ h₂ => ?_
      refine Logic.wp_call _ (hwork h₂) fun fine own₃ v₃ h₃ => ?_
      split
      . refine Logic.wp_call _ (hwork h₃) fun _ own₄ v₄ h₄ => ?_
        simpa using h₄
      . simpa using h₃
    . simpa using h
  refine Logic.wp_call _ (hstatus h) fun _ own₁ v₁ h₁ => ?_
  refine Logic.wp_call _ (hwork h₁) fun _ own₂ v₂ h₂ => ?_
  refine Logic.wp_call _ (hcommands h₂) fun fine own₃ v₃ h₃ => ?_
  split
  . simpa using h₃
  refine Logic.wp_call _ (hstatus h₃) fun _ own₄ v₄ h₄ => ?_
  refine Logic.wp_call _ (hwork h₄) fun _ own₅ v₅ h₅ => ?_
  refine Logic.wp_call _ (hwork h₅) fun _ own₆ v₆ h₆ => ?_
  simpa using h₆

/-- The owner drains the FIFO when it consumes `RX_READY`. -/
theorem ownerTurn_spec (h : v.Ready)
    : (logic cfg).wp (ownerTurn cfg) (fun go _ v' => go = true → v'.Ready) own v := by
  have hwork {events : Events} {own : Own} {v : View} (h : v.Ready)
      : (logic cfg).wp (ownerWork cfg events) (fun go _ v' => go = true → v'.Ready) own v := by
    refine Logic.wp_mono _ _ ?_ _ _ (ownerWork_spec h)
    intro _ _ _ hready _
    exact hready
  have hrecv : (logic cfg).wp (exec .recv) (fun
      | .events events => fun _ v' => if events.rxReady then v'.Draining else v'.Ready
      | _ => fun _ v' => v'.Ready) own v := by
    obtain ⟨hlive, hsettled, hoffer⟩ := h
    apply wp_exec
    intro sh input b own' sh' hrun
    cases b with
    | events events =>
      by_cases hrx : events.rxReady = true
      . refine ⟨_, .recvRx hsettled hoffer, ?_⟩
        simp only [hrx, if_true]
        exact ⟨hlive, hoffer⟩
      . refine ⟨v, .recv hsettled hoffer (by simp [hrx]), ?_⟩
        simp only [hrx]
        exact ⟨hlive, hsettled, hoffer⟩
    | _ => exact ⟨v, .recv hsettled hoffer (by simp), hlive, hsettled, hoffer⟩
  apply Logic.wp_call _ hrecv
  intro received own' v' hreceived
  cases received with
  | error => simp
  | timeout =>
    dsimp only
    split
    . exact hwork hreceived
    . simp
  | events events =>
    dsimp only at hreceived ⊢
    split
    . simp
    split
    next hrx =>
      rw [if_pos hrx] at hreceived
      exact Logic.wp_call _ (drainRx_spec hreceived) fun _ _ _ h => hwork h
    next hrx =>
      rw [if_neg hrx] at hreceived
      exact hwork hreceived

theorem ownerCleanup_spec : (logic cfg).wp ownerCleanup (fun _ _ _ => True) own v := by
  have hwork {work : Work} {own : Own} {v : View} (h : v.settled = false)
      : (logic cfg).wp (exec (.work work)) (fun _ _ v' => v'.settled = false) own v := wp_work fun _ => h
  have hquiesce : (logic cfg).wp (exec .quiesceBegin) (fun _ _ v' => v'.settled = false) own v :=
    wp_exec fun _ _ _ _ _ _ => ⟨_, .quiesceBegin, rfl⟩
  refine Logic.wp_call _ hquiesce fun _ own₁ v₁ h₁ => ?_
  refine Logic.wp_call _ (hwork h₁) fun _ own₂ v₂ h₂ => ?_
  have huninstall : (logic cfg).wp (exec (.setRxIndicate false)) (fun _ _ v' => v'.settled = false)
      own₂ v₂ :=
    wp_exec fun _ _ _ _ _ _ => ⟨_, .uninstall h₂, h₂⟩
  refine Logic.wp_call _ huninstall fun _ own₃ v₃ h₃ => ?_
  have hremove : (logic cfg).wp (exec .registryRemove) (fun _ _ v' => v'.settled = false) own₃ v₃ :=
    wp_exec fun _ _ _ _ _ _ => ⟨_, .registryRemove h₃, h₃⟩
  refine Logic.wp_call _ hremove fun _ own₄ v₄ h₄ => ?_
  refine Logic.wp_call _ (hwork h₄) fun _ own₅ v₅ h₅ => ?_
  refine Logic.wp_call _ (hwork h₅) fun _ _ _ _ => ?_
  simp

theorem ownerLoop_spec (h : v.Ready) : (logic cfg).wp (ownerLoop cfg) (fun _ _ _ => True) own v := by
  refine Logic.wp_call _ (wp_work (Q := fun _ _ v => v.Ready) fun _ => h) fun _ own₁ v₁ h₁ => ?_
  apply Logic.wp_loop _ (fun _ _ v => v.Ready) h₁
  intro _ own₂ v₂ h₂
  refine Logic.wp_call _ (ownerTurn_spec h₂) fun go own₃ v₃ h₃ => ?_
  split
  next hgo =>
    rw [Logic.wp_pure]
    exact h₃ hgo
  next =>
    rw [Logic.wp_pure]
    trivial

theorem ownerEntry_spec (h : v.Starting)
    : (logic cfg).wp (ownerEntry cfg) (fun _ _ _ => True) own v := by
  refine Logic.wp_call _ (ownerInit_spec h) fun ready own₁ v₁ h₁ => ?_
  split
  next hready =>
    exact Logic.wp_call _ (ownerLoop_spec (h₁ hready)) fun _ _ _ _ => ownerCleanup_spec
  next => exact ownerCleanup_spec

/-! ### Runs -/

theorem Starts.good {c : Config Op.Res Own Shared} (h : Starts cfg c) : (logic cfg).Good c := by
  cases h
  refine ⟨{}, ?_, ownerEntry_spec ⟨rfl, rfl⟩⟩
  constructor <;> simp

/-- What the owner knows when it waits. -/
theorem ready_of_recv {c : Config Op.Res Own Shared} (h : (logic cfg).GoodAt c v)
    (hnext : c.next? = some .recv) : v.settled = true ∧ v.toOffer = none := by
  obtain ⟨prog, own, sh⟩ := c
  cases prog with
  | op o k =>
    cases hnext
    have hexec : machine.exec .recv own sh (.timeout : Received) own sh := ⟨{ timeout := true }, rfl⟩
    obtain ⟨v', hghost, _⟩ := h.ghost hexec
    cases hghost with
    | recv hsettled hoffer => exact ⟨hsettled, hoffer⟩
  | _ => cases hnext

/--
The owner reads the frames in the order in which the driver appends them and offers Lely what it can
convert. Where it waits without `RX_READY`, the indication of every frame that it has not read is
still to come.
-/
theorem no_stranded_frame {c : Config Op.Res Own Shared} (hreach : machine.Reach (Starts cfg) c)
    : c.own.read ++ c.sh.fifo = c.sh.arrived
      ∧ (∃ rest, rest.length ≤ 1 ∧ c.own.offered ++ rest = c.own.read.filterMap (fromRt cfg))
      ∧ (c.next? = some .recv →
        c.own.offered = c.own.read.filterMap (fromRt cfg)
        ∧ (c.sh.events.rxReady = false → ∀ i, c.own.read.length ≤ i → i < c.sh.arrived.length →
          ∃ indication, c.sh.indications[i]? = some indication ∧ indication.Coming)) := by
  obtain ⟨v, hgood⟩ := Logic.good_of_reach (fun _ => Starts.good) hreach
  have hinv := hgood.1
  refine ⟨hinv.order, ⟨v.toOffer.toList, ?_, hinv.offered⟩, ?_⟩
  . cases v.toOffer <;> simp
  . intro hnext
    obtain ⟨hsettled, hoffer⟩ := ready_of_recv hgood hnext
    have hoffered := hinv.offered
    rw [hoffer, Option.toList_none, List.append_nil] at hoffered
    refine ⟨hoffered, ?_⟩
    intro hevent i hi hlt
    rw [← hinv.length] at hlt
    exact ⟨_, List.getElem?_eq_getElem hlt,
      hinv.settled hsettled hevent i _ hi (List.getElem?_eq_getElem hlt)⟩

/-- A configuration for classic CAN with batches of two frames. -/
def CanConfig.small : CanConfig where
  rtCanFd := false
  lelyCanFd := false
  canFd := false
  canBrs := false
  lenDlc := false
  rxBatch := 2
  commandIngress := true
  useStatusIndication := false

/-- The owner waits, and the driver has appended a frame without having called the indication yet. -/
theorem no_stranded_frame_appended
    : ∃ c, machine.Reach (Starts .small) c ∧ c.next? = some .recv ∧ c.sh.events.rxReady = false
      ∧ c.sh.fifo = [⟨false, 0x181, false, false, false, 1, [5]⟩]
      ∧ ∃ indication, c.sh.indications[0]? = some indication ∧ indication.Coming := by
  let c : Config Op.Res Own Shared :=
    Config.advance (fun o => o.run {}) 30 ⟨ownerEntry .small, {}, {}⟩
  have hsteps : machine.Steps ⟨ownerEntry .small, {}, {}⟩ c :=
    Config.steps_advance (M := machine) (fun _ _ _ _ _ _ hrun => ⟨{}, hrun⟩) 30 _
  have hreach : machine.Reach (Starts .small) c := (Machine.Reach.init .intro).steps hsteps
  have hframe : machine.Reach (Starts .small)
      { c with sh := c.sh.append ⟨false, 0x181, false, false, false, 1, [5]⟩ } :=
    .step hreach (.env (.append _))
  have hrecv : c.next? = some .recv := by decide
  refine ⟨_, hframe, hrecv, by decide, by decide, ?_⟩
  exact ((no_stranded_frame hframe).2.2 hrecv).2 (by decide) 0 (by decide) (by decide)

end LelyRtt.Can
