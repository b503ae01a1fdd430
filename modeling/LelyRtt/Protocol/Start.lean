import LelyRtt.Protocol.EntrySpec

/-!
This module contains the states that a run of the owner starts from, and what holds in every state
that it reaches.
-/

namespace LelyRtt

open Conc

variable {ι κ : Type} [DecidableEq ι] [DecidableEq κ]

/-- The application thread is in no post and no cancel call. -/
def AppPc.rests : AppPc → Bool
  | .idle | .destroyLoad | .destroyRefs | .destroyFree | .destroyed => true
  | _ => false

/-- The request was never posted, or its completion is over. -/
def AtRest (request : Request ι) (hist : List ReqEvent) : Prop :=
  request.state = .new ∧ completion hist = .unset ∧ .postRet .ok ∉ hist ∧ ¬canceledEarly hist
    ∨ request.state = .done ∧ (∃ who, completion hist = .closed who)
      ∧ (canceledEarly hist → request.Canceled)

abbrev Cfg (ι κ : Type) : Type 1 := Config (@Op.Res ι κ) (Own ι κ) (Shared ι κ)

/--
`lely_rtt_owner_entry` is about to run, and no poster or canceler is in flight. There is no NMT
service, and the gate is as `lely_rtt_runtime_create` or the last cleanup left it.
-/
structure Starts (cfg : BuildConfig) (c : Cfg ι κ) : Prop where
  prog : c.prog = ownerEntry cfg
  active : ∀ node, c.own.sdoActive node = none
  pending : ∀ node, c.own.sdoPending node = none
  csdo : ∀ chan r, c.own.csdo chan ≠ some (.busy r)
  point : c.own.point = .init
  pinStage : c.own.pinStage = .none
  nmt : ∀ node, c.own.misc.booting node = false ∧ c.own.misc.cfgActive node = none
  gate : c.own.misc.gate = .opened ∧ c.own.misc.gateLog = []
  history : c.own.taken = [] ∧ c.own.activated = [] ∧ c.own.started = []
  requests : ∀ r, AtRest (c.sh.heap r) (c.sh.hist r)
  app : ∀ r, (c.sh.app r).rests
  poster : ∀ i, c.sh.poster i = .idle
  commandRefs : c.sh.commandRefs = 0
  cancelRefs : c.sh.sdoCancelRefs = 0
  commandMq : c.sh.commandMq = none
  sent : c.sh.sent = []
  returned : ∀ tid, c.sh.returned tid = []

/-- What the owner knows when it starts. -/
def View.initial (sh : Shared ι κ) : View ι where
  place _ := .away
  hand := none
  fifo _ := []
  detached := []
  ident r := (sh.heap r).requestId
  settled _ := .no
  phase := ⟨false, false, false, false, false, false, false, 0, none⟩

variable {cfg : BuildConfig} {lim : Limits} {c : Cfg ι κ}

namespace Starts

theorem not_live (h : Starts cfg c) (r : ι) : (c.sh.heap r).live = false := by
  obtain ⟨hst, _⟩ | ⟨hst, _⟩ := h.requests r <;> simp [Request.live, hst, ReqState.terminal]

theorem reqOk (h : Starts cfg c) (r : ι)
    : ReqOk .away (c.sh.app r) (c.sh.heap r) (c.sh.hist r) False False := by
  have hrests := h.app r
  have hst : (c.sh.heap r).state = .new ∨ (c.sh.heap r).state = .done := by
    obtain ⟨hst, _⟩ | ⟨hst, _⟩ := h.requests r
    . exact .inl hst
    . exact .inr hst
  constructor
  case place_admits => obtain hst | hst := hst <;> simp [hst, Place.admits, ReqState.terminal]
  case pc_admits =>
    revert hrests
    cases c.sh.app r <;> obtain hst | hst := hst
      <;> simp [AppPc.rests, AppPc.admits, hst, ReqState.pinned, ReqState.staged]
  case args_valid =>
    revert hrests
    cases c.sh.app r <;> simp [AppPc.rests, AppPc.args?]
  case ctx_eq =>
    revert hrests
    cases c.sh.app r <;> simp [AppPc.rests, AppPc.ctx?]
  case filled =>
    rintro (⟨hnew, hdone⟩ | hpc)
    . exact absurd hst (by simp [hnew, hdone])
    . simp [hpc, AppPc.rests] at hrests
  case node_eq => simp [Place.node?]
  case refs_eq => simp [Place.holdsRefs]
  case next_eq => simp
  case alone_away => simp
  case queued_iff => obtain hst | hst := hst <;> simp [hst]
  case completion_fits =>
    obtain ⟨hst, hunset, _⟩ | ⟨hst, hclosed, _⟩ := h.requests r
    . simp [Completion.Fits, hst, hunset]
    . revert hrests
      cases c.sh.app r <;> simp [AppPc.rests, Completion.Fits, hst, hclosed]
  case posted =>
    intro hposted
    obtain ⟨_, _, hnot, _⟩ | ⟨hst, _⟩ := h.requests r
    . exact absurd hposted hnot
    . refine ⟨by simp [hst], ?_⟩
      revert hrests
      cases c.sh.app r <;> simp [AppPc.rests, AppPc.unsent]
  case ending_canceled => simp
  case staged_canceled => obtain hst | hst := hst <;> simp [hst]
  case publishing_canceled =>
    revert hrests
    cases c.sh.app r <;> simp [AppPc.rests, AppPc.publishing]
  case early =>
    rintro (hearly | hadmitted)
    . obtain ⟨_, _, _, hnot⟩ | ⟨hst, _, hcanceled⟩ := h.requests r
      . exact absurd hearly hnot
      . exact ⟨.inr ⟨hst, hcanceled hearly⟩, not_false⟩
    . revert hrests hadmitted
      cases c.sh.app r <;> simp [AppPc.rests, AppPc.admitted]
  case started_active => simp

theorem posting_eq_none (h : Starts cfg c) (tid : Tid ι κ) : c.sh.posting tid = none := by
  cases tid with
  | app r =>
    have hrests := h.app r
    revert hrests
    simp only [Shared.posting]
    cases c.sh.app r <;> simp [AppPc.rests]
  | poster i => simp [Shared.posting, h.poster i]

variable [Fintype ι] [Fintype κ]

theorem commands (h : Starts cfg c) : Commands cfg c.own c.sh (.initial c.sh) where
  taken_eq := by simp [h.history.1, Shared.queue, h.commandMq, h.sent]
  queue_length := by simp [Shared.queue, h.commandMq]
  sent_eq tid := by simp [h.sent, h.returned tid, h.posting_eq_none tid, accepted, inFlight]
  refs_eq := by simp [h.commandRefs, h.posting_eq_none, postWeight, total]
  no_queue _ := h.commandMq
  sending tid command hposting := by simp [h.posting_eq_none tid] at hposting
  latched := by simp [View.initial]
  idle := by simp [View.initial]
  drained := by simp [View.initial]

omit [Fintype κ] in
theorem pins (h : Starts cfg c) : Pins c.own c.sh (.initial c.sh) where
  cancelRefs_eq := by
    have hweight (r : ι) : cancelWeight (c.sh.heap r).state (c.sh.app r) = 0 := by
      have hrests := h.app r
      have hpublishing : (c.sh.app r).publishing = none := by
        revert hrests
        cases c.sh.app r <;> simp [AppPc.rests, AppPc.publishing]
      obtain ⟨hst, _⟩ | ⟨hst, _⟩ := h.requests r
        <;> simp [cancelWeight, hst, ReqState.staged, hpublishing]
    simp [h.cancelRefs, total, hweight, h.pinStage, PinStage.weight]
  callbackRefs_eq := by simp [View.initial]
  pinOk r := by
    have hrests := h.app r
    revert hrests
    cases c.sh.app r <;> simp [AppPc.rests, AppPc.pinOk]
  notOpened _ r := by
    refine ⟨rfl, ?_⟩
    have hrests := h.app r
    revert hrests
    cases c.sh.app r <;> simp [AppPc.rests, AppPc.canceling]
  callbackQuiescing _ := .inr rfl
  unpinned r ctx _ _ hpc := by
    have hrests := h.app r
    obtain ⟨err, hpc⟩ | hpc := hpc <;> simp [hpc, AppPc.rests] at hrests
  pinsIdle := by simp [View.initial]
  point := by simp [h.point, Point.rank]

theorem inv (h : Starts cfg c) : Inv cfg lim c.own c.sh (.initial c.sh) where
  requests r := by
    have hqueue : (⟨.app r, .sdo r⟩ : Entry ι κ) ∈ c.sh.queue ↔ False := by
      simp [Shared.queue, h.commandMq]
    have hstarted : r ∈ c.own.started ↔ False := by simp [h.history.2.2]
    rw [hqueue, hstarted]
    exact h.reqOk r
  lists :=
    {
      hand_iff := by simp [View.initial, Place.inHand]
      mem_fifo := by simp [View.initial]
      promoted_head := by simp [View.initial]
      fifo_nodup := by simp [View.initial]
      fifo_length := by simp [View.initial]
      fifo_threaded := by simp [View.initial]
      pending_eq := by simp [View.initial, h.pending]
      active_iff := by simp [View.initial, h.active]
      mem_detached := by simp [View.initial]
      detached_nodup := by simp [View.initial]
      detached_threaded := by simp [View.initial]
      busy := fun chan r hbusy => absurd hbusy (h.csdo chan r)
    }
  commands := h.commands
  sent :=
    {
      tid_eq := by simp [h.sent]
      nodup := by simp [h.sent]
      published := by simp [h.sent]
      foreign := by simp [h.poster]
    }
  idents := by simp [Idents, View.initial]
  pins := h.pins
  order := by
    intro node
    simp [h.history.2.1, Shared.ofNode, View.line, View.handIf, View.initial]
  wake :=
    {
      uniqueIds := fun _ r r' hr => by simp [h.not_live r] at hr
      old_le := by simp [View.initial]
      outstanding := by simp [Shared.queue, h.commandMq]
      canceled := by simp [View.initial, Place.waits]
      old_eq := by simp [View.initial]
      head := by simp [View.initial]
      command := by simp [View.initial]
    }
  exclusive := fun _ node _ => h.active node
  single := fun _ node _ => (h.nmt node).2
  gate := by
    rw [h.gate.1, h.gate.2]
    rfl

/-- A run starts in the program logic. -/
theorem good (h : Starts cfg c) : (logic ι κ cfg lim).Good c := by
  refine ⟨.initial c.sh, h.inv, ?_⟩
  rw [h.prog]
  refine ownerEntry_spec ⟨⟨rfl, rfl⟩, h.pinStage, h.active, fun _ => rfl, rfl, rfl, rfl, rfl, rfl⟩

end Starts

/-- No limits on a run. -/
def Limits.none : Limits := ⟨False, False, False⟩

variable [Fintype ι] [Fintype κ]

/-- What the program logic says about a run within the limits. -/
theorem good_of_restricted (h : (restricted ι κ cfg lim).Reach (Starts cfg) c)
    : (logic ι κ cfg lim).Good c :=
  Logic.good_of_reach (fun _ hstart => hstart.good) h

omit [DecidableEq ι] [DecidableEq κ] [Fintype ι] [Fintype κ] in
theorem permits_none (own : Own ι κ) (o : Op ι κ) (b : o.Res) : o.permits .none own b := by
  unfold Op.permits
  split
  . exact False.elim
  . exact False.elim
  . trivial

omit [Fintype ι] [Fintype κ] in
/-- Every step keeps within no limits. -/
theorem unrestricted_step {c' : Cfg ι κ} (h : (machine ι κ cfg).Step c c')
    : (restricted ι κ cfg .none).Step c c' :=
  h.mono (fun _ _ _ _ _ _ hexec => ⟨hexec, permits_none ..⟩) fun _ _ _ henv => ⟨henv, False.elim⟩

/-- What the program logic says about every run. -/
theorem good_of_reach (h : (machine ι κ cfg).Reach (Starts cfg) c)
    : (logic ι κ cfg .none).Good c := by
  induction h with
  | init hstart => exact hstart.good
  | step _ hstep ih => exact ih.step (unrestricted_step hstep)

/-- The operation that the owner is about to run. -/
def Cfg.next? (c : Cfg ι κ) : Option (Op ι κ) :=
  match c.prog with
  | .op o _ => some o
  | _ => none

/-- The operation that the owner is about to run is a move of its view. -/
theorem ghost_of_next {v : View ι} {o : Op ι κ} {input : Input} {b : o.Res} {own' : Own ι κ}
    {sh' : Shared ι κ} (h : (logic ι κ cfg lim).GoodAt c v) (hnext : c.next? = some o)
    (hrun : o.run input c.own c.sh = (b, own', sh')) (hpermits : o.permits lim c.own b)
    : ∃ v', Ghost cfg lim o c.own c.sh b v v' := by
  obtain ⟨prog, own, sh⟩ := c
  cases prog with
  | op o' k =>
    cases hnext
    obtain ⟨v', hghost, _⟩ := h.ghost ⟨⟨input, hrun⟩, hpermits⟩
    exact ⟨v', hghost⟩
  | _ => cases hnext

/-- What one step of a run does to the state and to the view. -/
inductive Moved (cfg : BuildConfig) (lim : Limits) (own : Own ι κ) (sh : Shared ι κ) (v : View ι)
    : Own ι κ → Shared ι κ → View ι → Prop
  | turn : Moved cfg lim own sh v own sh v
  | env {sh'} : EnvStep cfg sh sh' → Moved cfg lim own sh v own sh' v
  | exec {o : Op ι κ} {input b own' sh' v'} : o.run input own sh = (b, own', sh') →
      Ghost cfg lim o own sh b v v' → Moved cfg lim own sh v own' sh' v'

theorem moved_of_step {c' : Cfg ι κ} {v : View ι} (h : (logic ι κ cfg lim).GoodAt c v)
    (hstep : (restricted ι κ cfg lim).Step c c')
    : ∃ v', (logic ι κ cfg lim).GoodAt c' v' ∧ Moved cfg lim c.own c.sh v c'.own c'.sh v' := by
  cases hstep with
  | op hexec =>
    obtain ⟨v', hghost, hgood⟩ := h.ghost hexec
    obtain ⟨⟨input, hrun⟩, _⟩ := hexec
    exact ⟨v', hgood, .exec hrun hghost⟩
  | turn => exact ⟨v, ⟨h.1, Logic.wp_turn _ h.2⟩, .turn⟩
  | env henv => exact ⟨v, ⟨(logic ι κ cfg lim).inv_env h.1 henv, h.2⟩, .env henv.1⟩

/-- What every step of a run keeps holds at its end. -/
theorem steps_induction {c' : Cfg ι κ} {v : View ι} {P : Own ι κ → Shared ι κ → View ι → Prop}
    (hgood : (logic ι κ cfg .none).GoodAt c v) (hsteps : (machine ι κ cfg).Steps c c')
    (hP : P c.own c.sh v)
    (hmoved : ∀ own sh v own' sh' v', Inv cfg .none own sh v → P own sh v →
      Moved cfg .none own sh v own' sh' v' → P own' sh' v')
    : ∃ v', (logic ι κ cfg .none).GoodAt c' v' ∧ P c'.own c'.sh v' := by
  induction hsteps with
  | refl => exact ⟨v, hgood, hP⟩
  | tail _ hstep ih =>
    obtain ⟨v₁, hgood₁, hP₁⟩ := ih
    obtain ⟨v₂, hgood₂, hmove⟩ := moved_of_step hgood₁ (unrestricted_step hstep)
    exact ⟨v₂, hgood₂, hmoved _ _ _ _ _ _ hgood₁.1 hP₁ hmove⟩

end LelyRtt
