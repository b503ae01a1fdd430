import LelyRtt.Run.Draws
import LelyRtt.Run.Schedule
import LelyRtt.Run.Wakes

/-!
This module contains what holds as long as the counter of request ids has not come around: the ids of
unfinished requests are unique, and no pending request is left behind when the owner waits.
-/

namespace LelyRtt

open Conc

variable {ι κ : Type} [DecidableEq ι] [DecidableEq κ] [Fintype ι] [Fintype κ]
  {cfg : BuildConfig} {lim : Limits} {own own' : Own ι κ} {sh sh' : Shared ι κ} {v v' : View ι}
  {c c' : Cfg ι κ} {d : Draws ι} {base : BitVec 32}

/-- The ids of unfinished requests are unique. -/
def Limits.unique : Limits := ⟨True, False, False⟩

omit [DecidableEq ι] [DecidableEq κ] [Fintype ι] [Fintype κ] in
theorem permits_unique (own : Own ι κ) (o : Op ι κ) (b : o.Res) : o.permits .unique own b := by
  unfold Op.permits
  split
  . exact False.elim
  . exact False.elim
  . trivial

omit [DecidableEq κ] [Fintype ι] [Fintype κ] in
/-- The owner changes the state of unfinished requests only. -/
theorem exec_resting {o : Op ι κ} {input : Input} {b : o.Res} {r : ι} (hrequests : Requests own sh v)
    (hexec : o.run input own sh = (b, own', sh')) (hghost : Ghost cfg lim o own sh b v v')
    (hst : (sh.heap r).state = .new ∨ (sh.heap r).state = .done)
    : (sh'.heap r).state = (sh.heap r).state := by
  obtain hsame | ⟨expected, desired, rfl, hb, hold, _⟩ := run_state_cases hexec r
  . exact hsame
  . have hheld : v.place r ≠ .away ∧ ∀ sent, v.place r ≠ .published sent := by
      cases hghost with
      | look hlooks => simp [Op.looks] at hlooks
      | claimPending hplace | claimActive hplace | claimDoomed hplace | claimTeardown hplace
      | claimFailed hplace | promote _ hplace | promoteFailed hplace | publish hplace
      | publishFailed hplace | stage _ hplace | stageFailed _ hplace => simp [hplace]
    have hlive := (hrequests r).live hheld.1 hheld.2
    obtain hst | hst := hst <;> simp [Request.live, hst, ReqState.terminal] at hlive

namespace DrawsOk

omit [DecidableEq κ] [Fintype ι] [Fintype κ] in
theorem exec {o : Op ι κ} {input : Input} {b : o.Res} (h : DrawsOk base sh d)
    (hrequests : Requests own sh v) (hexec : o.run input own sh = (b, own', sh'))
    (hghost : Ghost cfg lim o own sh b v v') : DrawsOk base sh' (d.after sh sh') := by
  have hnext := run_nextId (o := o) input own sh
  have happ := (run_threads (o := o) input own sh).1
  have hident := run_ident (o := o) input own sh
  simp only [hexec] at hnext happ hident
  rw [d.after_same happ hnext]
  constructor
  case count => rw [hnext, h.count]
  case le => exact h.le
  case inj => exact h.inj
  case fill =>
    rw [happ]
    exact h.fill
  case ident =>
    intro r hne hfill
    rw [(hident r).1]
    exact h.ident r hne (happ ▸ hfill)
  case undrawn =>
    intro r hzero
    obtain ⟨hearly, hst⟩ := h.undrawn r hzero
    rw [happ, exec_resting hrequests hexec hghost hst]
    exact ⟨hearly, hst⟩

omit [DecidableEq ι] [DecidableEq κ] [Fintype ι] [Fintype κ] in
/-- As long as the counter has not come around the number of a post is known from its id. -/
theorem uniqueIds (h : DrawsOk base sh d) (hrequests : Requests own sh v) (hcount : d.count < 2 ^ 32)
    : UniqueIds sh := by
  have hdrawn (r : ι) (hlive : (sh.heap r).live)
      : d.drawn r ≠ 0 ∧ (sh.heap r).requestId = base + BitVec.ofNat 32 (d.drawn r) := by
    have hst : (sh.heap r).state ≠ .new ∧ (sh.heap r).state ≠ .done := by
      constructor <;> intro hst <;> simp [Request.live, hst, ReqState.terminal] at hlive
    have hne : d.drawn r ≠ 0 := fun hzero => (h.undrawn r hzero).2.elim hst.1 hst.2
    refine ⟨hne, h.ident r hne fun args id hpc => hst.1 ?_⟩
    have hadmits := (hrequests r).pc_admits
    simpa [hpc, AppPc.admits] using hadmits
  intro r r' hlive hlive' _ hid
  obtain ⟨hne, hident⟩ := hdrawn r hlive
  obtain ⟨_, hident'⟩ := hdrawn r' hlive'
  have hle := h.le r
  have hle' := h.le r'
  rw [hident, hident'] at hid
  have heq : d.drawn r = d.drawn r' := by
    have hnat := congrArg BitVec.toNat ((BitVec.add_right_inj base).1 hid)
    rwa [BitVec.toNat_ofNat, BitVec.toNat_ofNat, Nat.mod_eq_of_lt (by omega),
      Nat.mod_eq_of_lt (by omega)] at hnat
  exact (h.inj r r' heq.symm hne).symm

end DrawsOk

omit [Fintype ι] [Fintype κ] in
theorem StartsOff.drawsOk (h : StartsOff cfg c)
    : DrawsOk c.sh.sdoNextRequestId c.sh ⟨0, fun _ => 0, fun _ => 0⟩ := by
  have hrests (r : ι) : (c.sh.app r).early ∧ ∀ args id, c.sh.app r ≠ .postFill args id := by
    have hrests := h.app r
    cases hpc : c.sh.app r <;> simp_all [AppPc.rests, AppPc.early]
  exact
    {
      count := by simp
      le := fun _ => Nat.le_refl _
      inj := fun _ _ _ hne => absurd rfl hne
      fill := fun r args id hpc => absurd hpc ((hrests r).2 args id)
      ident := fun _ hne => absurd rfl hne
      undrawn := fun r _ => ⟨(hrests r).1, (h.requests r).imp And.left And.left⟩
    }

omit [DecidableEq ι] [DecidableEq κ] [Fintype ι] [Fintype κ] in
theorem Draws.count_le_after (d : Draws ι) (sh sh' : Shared ι κ) : d.count ≤ (d.after sh sh').count := by
  simp only [after]
  split <;> omega

omit [Fintype ι] [Fintype κ] in
theorem Counted.reach (h : Counted cfg c d) : (machine ι κ cfg).Reach (Starts cfg) c := by
  induction h with
  | start hstart => exact .init hstart.toStarts
  | step _ hstep ih => exact .step ih hstep

/-- A run that has not drawn all ids is one within the limit of unique ids. -/
theorem Counted.unique (h : Counted cfg c d) (hcount : d.count < 2 ^ 32)
    : (restricted ι κ cfg .unique).Reach (Starts cfg) c ∧ ∃ base, DrawsOk base c.sh d := by
  induction h with
  | start hstart => exact ⟨.init hstart.toStarts, _, hstart.drawsOk⟩
  | @step c c' d hcounted hstep ih =>
    obtain ⟨hreach, base, hdraws⟩ := ih (Nat.lt_of_le_of_lt (d.count_le_after c.sh c'.sh) hcount)
    obtain ⟨v, hgood⟩ := good_of_restricted hreach
    have hrequests := hgood.1.requests
    obtain ⟨v', hgood'⟩ := good_of_reach (hcounted.reach.step hstep)
    cases hstep with
    | op hexec =>
      obtain ⟨v', hghost, _⟩ := hgood.ghost ⟨hexec, permits_unique ..⟩
      refine ⟨.step hreach (.op ⟨hexec, permits_unique ..⟩), base, ?_⟩
      obtain ⟨input, hrun⟩ := hexec
      exact hdraws.exec hrequests hrun hghost
    | turn =>
      refine ⟨.step hreach .turn, base, ?_⟩
      rwa [d.after_same rfl rfl]
    | env henv =>
      have hdraws' := hdraws.env (henv.idStep hrequests.possible)
      have hunique := hdraws'.uniqueIds hgood'.1.requests hcount
      exact ⟨.step hreach (.env ⟨henv, fun _ => hunique⟩), base, hdraws'⟩

/-- Nothing is in the hand of an owner that waits for an event. -/
theorem rest_of_receive (h : (logic ι κ cfg lim).GoodAt c v) (hreceive : c.next? = some .receive)
    : v.Rest := by
  have hrun : (Op.receive : Op ι κ).run {} c.own c.sh = Op.receive.run {} c.own c.sh := rfl
  obtain ⟨v', hghost⟩ := ghost_of_next h hreceive hrun trivial
  cases hghost with
  | look hlooks => simp [Op.looks] at hlooks
  | receive hrest => exact hrest

/-- The canceling thread is to post its command with its event, or to restore the state and send one. -/
def AppPc.wakes : AppPc → Bool
  | .cancelIdent kind => kind = .pending
  | .callbackLoad ctx | .callbackAdd ctx | .callbackCheck ctx | .callbackUndo ctx =>
    ctx.kind = .pending
  | .cancelCommand ctx pc => ctx.kind = .pending ∧ !pc.sent
  | .unpin ctx err => ctx.kind = .pending ∧ err ≠ .ok
  | _ => false

/--
What wakes up the owner for the request at the head of the FIFO of a node: the thread that cancels it,
or a cancel command whose event is outstanding.
-/
def Shared.HeadServed (sh : Shared ι κ) (node : Nat) (r : ι) : Prop :=
  (sh.heap r).state = .pendingCancelPinned ∧ (sh.app r).wakes
    ∨ (sh.heap r).state = .pending ∧ (sh.eventCommand = true ∨ ∃ ctx err, sh.app r = .wake ctx err)
    ∨ ∃ entry ∈ sh.queue, (∃ id, entry.command = .sdoCancel node id) ∧ sh.Outstanding entry

omit [DecidableEq ι] [DecidableEq κ] [Fintype ι] [Fintype κ] in
/-- A request that is pinned in a FIFO has a canceling thread. -/
theorem wakes_of_pinned {r : ι} (h : Requests own sh v)
    (hst : (sh.heap r).state = .pendingCancelPinned) (hsent : (sh.app r).cancelSent = false)
    : (sh.app r).wakes := by
  have hadmits := (h r).pc_admits
  rw [hst] at hadmits
  cases hpc : sh.app r with
  | cancelIdent kind => cases kind <;> simp_all [AppPc.admits, AppPc.wakes, PinKind.pinned, PinKind.staged]
  | callbackLoad ctx | callbackAdd ctx | callbackCheck ctx | callbackUndo ctx | cancelCommand ctx pc
  | unpin ctx err | unpinRead ctx err | unpinHold ctx err | unpinDone ctx err =>
    obtain ⟨kind, _, _, _, _⟩ := ctx
    cases kind <;> simp_all [AppPc.admits, AppPc.wakes, AppPc.cancelSent, PinKind.pinned, PinKind.staged]
  | postCommand pc => cases pc <;> simp_all [AppPc.admits, PostPc.sent, ReqState.pinned]
  | _ => simp_all [AppPc.admits, ReqState.pinned, ReqState.staged]

/--
No pending request is left behind. As long as fewer than 2^32 posts were attempted, the owner waits
for an event only if for each node that is available, has no active transfer and whose client is not
about to be stopped, the head of the FIFO has a canceling thread or a cancel command that will wake
the owner; and each request in a FIFO that was canceled has its own cancel command in the queue.
-/
theorem no_stranded_request (h : Counted cfg c d) (hcount : d.count < 2 ^ 32)
    (hreceive : c.next? = some .receive) (node : Nat) (hnode : node ≠ 0) (hmax : node ≤ numNodes)
    : ∃ fifo, Scheduled cfg c.own c.sh node fifo
      ∧ (∀ r ∈ fifo, (c.sh.heap r).state = .cancelPending →
        ⟨.app r, .sdoCancel node (c.sh.heap r).requestId⟩ ∈ c.sh.queue)
      ∧ (sdoNodeAvailable c.own.misc node = true → c.own.sdoActive node = none →
        c.own.misc.sdoStopPending node = false → ∀ r rest, fifo = r :: rest →
          c.sh.HeadServed node r) := by
  obtain ⟨v, hgood⟩ := good_of_restricted (h.unique hcount).1
  have hinv := hgood.1
  obtain ⟨hclosing, htarget, hold, hquiet⟩ := old_of_receive hgood hreceive
  have hrest := rest_of_receive hgood hreceive
  have hplace (r : ι) (hr : r ∈ v.fifo node) : v.place r = .fifo node :=
    hinv.lists.place_of_mem hrest.1 hr
  have hqueued (r : ι) (hr : r ∈ v.fifo node)
      (hst : (c.sh.heap r).state = .cancelPending ∨ (c.sh.app r).cancelSent)
      : ⟨.app r, .sdoCancel node (c.sh.heap r).requestId⟩ ∈ c.sh.queue := by
    have hmem := hinv.wake.canceled trivial hclosing r node (by simp [hplace r hr, Place.waits]) hst
    rw [htarget] at hmem
    rw [hinv.idents r (by simp [hplace r hr])]
    exact hmem.resolve_right (by simp)
  have houtstanding (entry : Entry ι κ) (hentry : entry ∈ c.sh.queue) : c.sh.Outstanding entry :=
    hinv.wake.outstanding entry (by rwa [hold])
  refine ⟨v.fifo node, hinv.scheduled hrest node, fun r hr hst => hqueued r hr (.inl hst), ?_⟩
  intro havailable hactive hstop r rest hfifo
  have hr : r ∈ v.fifo node := by simp [hfifo]
  have hsettled : v.settled node ≠ .no := by
    rcases hquiet node hnode hmax with hq | hq | hq | hq | hq
    . simp [havailable] at hq
    . simp [hactive] at hq
    . simp [hstop] at hq
    . simp [hfifo] at hq
    . exact hq
  cases hwhy : v.settled node with
  | no => exact absurd hwhy hsettled
  | command =>
    obtain ⟨entry, hentry, id, hcommand⟩ := hinv.wake.command trivial hclosing node hwhy
    exact .inr (.inr ⟨entry, hentry, ⟨id, hcommand⟩, houtstanding entry hentry⟩)
  | head =>
    obtain ⟨r', rest', hfifo', hwakes⟩ := hinv.wake.head node hwhy
    rw [hfifo] at hfifo'
    cases hfifo'
    rcases hwakes.resolve_right (by simp [hclosing]) with hst | hst | hst
    . by_cases hsent : (c.sh.app r).cancelSent
      . have hentry := hqueued r hr (.inr hsent)
        exact .inr (.inr ⟨_, hentry, ⟨_, rfl⟩, houtstanding _ hentry⟩)
      . exact .inl ⟨hst, wakes_of_pinned hinv.requests hst (by simpa using hsent)⟩
    . have hentry := hqueued r hr (.inl hst)
      exact .inr (.inr ⟨_, hentry, ⟨_, rfl⟩, houtstanding _ hentry⟩)
    . exact .inr (.inl hst)

omit [Fintype ι] [Fintype κ] in
/-- A schedule attempts at most as many posts as it has steps. -/
theorem counted_of_runAlong (h : Counted cfg c d) {choices : List (Choice ι κ)}
    (hrun : runAlong cfg choices c = some c')
    : ∃ d', Counted cfg c' d' ∧ d'.count ≤ d.count + choices.length := by
  induction choices generalizing c d with
  | nil =>
    cases hrun
    exact ⟨d, h, Nat.le_refl _⟩
  | cons choice rest ih =>
    unfold runAlong at hrun
    split at hrun
    . cases hrun
    next c₁ hstep =>
      obtain ⟨d', hcounted, hle⟩ := ih (h.step (Choice.step_sound hstep)) hrun
      have hone : (d.after c.sh c₁.sh).count ≤ d.count + 1 := by
        simp only [Draws.after]
        split <;> omega
      exact ⟨d', hcounted, by simp only [List.length_cons]; omega⟩

/--
The active transfer of a node ends while the request behind it is pinned by its canceling thread, and
the owner waits with the request at the head of the FIFO.
-/
theorem no_stranded_request_pinned
    : ∃ (c : Cfg Bool Unit) (d : Draws Bool), Counted .small c d ∧ c.next? = some .receive
      ∧ c.own.sdoActive 5 = none ∧ c.own.sdoPending 5 = some true ∧ c.sh.HeadServed 5 true := by
  have hstart : StartsOff .small (.blank Bool Unit .small) :=
    ⟨starts_blank Bool Unit .small, fun _ => .inl rfl, fun _ => rfl⟩
  obtain ⟨c, hrun, hc⟩ : ∃ c, runAlong .small (Choice.starts ++ Choice.uploads 17 false 5
      ++ Choice.uploads 17 true 5 ++ Choice.dispatches
      ++ Choice.owners 29 { pick := true, outcome := .started } ++ List.replicate 5 (.app true .cancel)
      ++ Choice.owners 20 { work := .confirm (.predefined 5) 0 [] true } ++ Choice.owners 524 {})
      (Cfg.blank Bool Unit .small) = some c
      ∧ decide (c.atReceive ∧ c.own.sdoActive 5 = none ∧ c.own.sdoPending 5 = some true
        ∧ sdoNodeAvailable c.own.misc 5 = true ∧ c.own.misc.sdoStopPending 5 = false) := by
    rw [← Option.any_eq_true]
    decide +kernel
  obtain ⟨d, hcounted, hle⟩ := counted_of_runAlong (.start hstart) hrun
  simp only [decide_eq_true_eq] at hc
  obtain ⟨hat, hactive, hpending, havailable, hstop⟩ := hc
  have hreceive := Cfg.next_of_atReceive hat
  have hcount : d.count < 2 ^ 32 := by
    refine Nat.lt_of_le_of_lt hle ?_
    simp only [Choice.starts, Choice.uploads, Choice.dispatches, Choice.owners, List.length_append,
      List.length_replicate]
    omega
  obtain ⟨fifo, hscheduled, -, hserved⟩ := no_stranded_request hcounted hcount hreceive 5
    (by decide) (by decide)
  obtain ⟨rest, hfifo⟩ : ∃ rest, fifo = true :: rest :=
    List.head?_eq_some_iff.1 (hscheduled.head.symm.trans hpending)
  exact ⟨c, d, hcounted, hreceive, hactive, hpending,
    hserved havailable hactive hstop true rest hfifo⟩

end LelyRtt
