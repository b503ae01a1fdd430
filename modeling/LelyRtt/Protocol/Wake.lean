import LelyRtt.Protocol.Pins

/-!
This module contains the part of the invariant about wakes: which commands in the queue have an
event outstanding, that a canceled request in a FIFO has its own command in the queue, and why the
owner need not look at a node again before its next event.
-/

namespace LelyRtt

open Conc

variable {ι κ : Type}

/-- The request was posted and its result is not decided. -/
def Request.live (request : Request ι) : Bool :=
  request.state ≠ .new ∧ !request.state.terminal

/-- No two unfinished requests of one node carry the same request id. -/
def UniqueIds (sh : Shared ι κ) : Prop :=
  ∀ r r', (sh.heap r).live → (sh.heap r').live → (sh.heap r).nodeId = (sh.heap r').nodeId →
    (sh.heap r).requestId = (sh.heap r').requestId → r = r'

/-- A request that the owner holds and has not completed is unfinished. -/
theorem ReqOk.live {place : Place} {pc : AppPc} {request : Request ι} {hist : List ReqEvent}
    {queued started : Prop} (h : ReqOk place pc request hist queued started)
    (hheld : place ≠ .away) (hpublished : ∀ sent, place ≠ .published sent) : request.live := by
  have hnew : request.state ≠ .new := by
    intro hst
    exact hheld (Place.away_of_admits h.place_admits (.inl hst))
  have hdone : request.state ≠ .done := by
    intro hst
    obtain ⟨sent, heq⟩ := Place.published_of_admits (hst ▸ h.place_admits) hheld
    exact hpublished sent heq
  have hstaged : request.state.staged = false := by
    by_contra hstaged
    exact hheld (Place.away_of_admits h.place_admits (.inr (by simpa using hstaged)))
  simp [Request.live, ReqState.terminal, hnew, hdone, hstaged]

theorem ReqOk.not_terminal {place : Place} {pc : AppPc} {request : Request ι}
    {hist : List ReqEvent} {queued started : Prop} (h : ReqOk place pc request hist queued started)
    (hheld : place ≠ .away) (hpublished : ∀ sent, place ≠ .published sent)
    : request.state.terminal = false := by
  have hlive := h.live hheld hpublished
  simp only [Request.live, Bool.decide_and, Bool.and_eq_true, decide_eq_true_eq,
    Bool.not_eq_true'] at hlive
  exact hlive.2

theorem ReqOk.filled_of_held {place : Place} {pc : AppPc} {request : Request ι}
    {hist : List ReqEvent} {queued started : Prop} (h : ReqOk place pc request hist queued started)
    (hheld : place ≠ .away) (hpublished : ∀ sent, place ≠ .published sent)
    : request.runtime = true ∧ request.nodeId ≠ 0 ∧ request.nodeId ≤ numNodes := by
  have hlive := h.live hheld hpublished
  have hterminal := h.not_terminal hheld hpublished
  simp only [Request.live, Bool.decide_and, Bool.and_eq_true, decide_eq_true_eq] at hlive
  refine h.filled (.inl ⟨hlive.1, ?_⟩)
  intro hdone
  simp [hdone, ReqState.terminal] at hterminal

/-- The event for a command in the queue is not consumed, or still to be sent. -/
def Shared.Outstanding (sh : Shared ι κ) (entry : Entry ι κ) : Prop :=
  sh.eventCommand = true ∨ sh.posting entry.tid = some (entry.command, .event)

/-- The request is in the FIFO of the node or about to join it. -/
def Place.waits (node : Nat) : Place → Bool
  | .fifo node' | .joining node' _ => node' = node
  | _ => false

/-- The canceling thread has put its command into the queue. -/
def AppPc.cancelSent : AppPc → Bool
  | .cancelCommand _ pc => pc.sent
  | .unpin _ err => err = .ok
  | _ => false

/-- The head of a FIFO that could not be promoted, and what happens to it. -/
def Shared.HeadWakes (sh : Shared ι κ) (r : ι) : Prop :=
  (sh.heap r).state = .pendingCancelPinned ∨ (sh.heap r).state = .cancelPending
    ∨ (sh.heap r).state = .pending ∧ (sh.eventCommand = true ∨ ∃ ctx err, sh.app r = .wake ctx err)

structure Wake (lim : Limits) (sh : Shared ι κ) (v : View ι) : Prop where
  uniqueIds : lim.uniqueIds → UniqueIds sh
  old_le : v.phase.old ≤ sh.queue.length
  outstanding : ∀ entry ∈ sh.queue.drop v.phase.old, sh.Outstanding entry
  canceled : lim.uniqueIds → v.phase.closing = false → ∀ r node, (v.place r).waits node →
    (sh.heap r).state = .cancelPending ∨ (sh.app r).cancelSent →
    ⟨.app r, .sdoCancel node (v.ident r)⟩ ∈ sh.queue ∨ v.phase.target = some (node, v.ident r)
  old_eq : ∀ node, v.settled node ≠ .no → v.phase.old = 0
  head : ∀ node, v.settled node = .head → ∃ r rest, v.fifo node = r :: rest
    ∧ (sh.HeadWakes r ∨ v.phase.closing = true)
  command : lim.uniqueIds → v.phase.closing = false → ∀ node, v.settled node = .command →
    ∃ entry ∈ sh.queue, ∃ id, entry.command = .sdoCancel node id

section

variable [DecidableEq ι] [DecidableEq κ] {cfg : BuildConfig} {tid : Tid ι κ} {sh sh' : Shared ι κ}

/-- A step of a thread appends at most the command that it posts, and then its event is to be sent. -/
theorem CommandStep.queue (h : CommandStep cfg tid sh sh')
    : ∃ pushed, sh'.queue = sh.queue ++ pushed ∧ sh'.sent = sh.sent ++ pushed
      ∧ ∀ entry ∈ pushed, entry.tid = tid ∧ sh'.posting tid = some (entry.command, .event) := by
  cases h with
  | outside _ _ hsame | begin_ _ _ _ hsame =>
    exact ⟨[], by simp [hsame.queue], by simp [hsame.sent], by simp⟩
  | @step command pc next _ hres hpc' hsame =>
    obtain ⟨hqueue, hsent, _⟩ := commandPostStep_queue cfg tid command pc sh
    refine ⟨_, by rw [hsame.queue, hqueue], by rw [hsame.sent, hsent], ?_⟩
    intro entry hentry
    split at hentry
    next hpush =>
      obtain rfl := List.mem_singleton.mp hentry
      simp only [hres, PostPc.pushes, Sum.inl.injEq, Bool.decide_and, Bool.and_eq_true,
        decide_eq_true_eq] at hpush
      exact ⟨rfl, by rw [hpc', hpush.2]⟩
    next => simp at hentry
  | @ret command pc err _ hres hpc' hsame =>
    obtain ⟨hqueue, hsent, _⟩ := commandPostStep_queue cfg tid command pc sh
    exact ⟨[], by rw [hsame.queue, hqueue, hres]; simp [PostPc.pushes],
      by rw [hsame.sent, hsent, hres]; simp [PostPc.pushes], by simp⟩

theorem CommandStep.event (h : CommandStep cfg tid sh sh')
    (hevent : sh.eventCommand = true ∨ ∃ command, sh.posting tid = some (command, .event))
    : sh'.eventCommand = true := by
  cases h with
  | outside hpc _ hsame | begin_ _ hpc _ hsame => exact hsame.event (by simpa [hpc] using hevent)
  | @step command pc _ hpc _ _ hsame | @ret command pc _ hpc _ _ hsame =>
    apply hsame.event
    obtain hevent | ⟨command', hposting⟩ := hevent
    . exact (commandPostStep_same cfg tid command pc sh).1.event hevent
    . rw [hpc] at hposting
      simp only [Option.some_inj, Prod.mk.injEq] at hposting
      rw [hposting.2]
      rfl

theorem CommandStep.outstanding (h : CommandStep cfg tid sh sh')
    (hother : ∀ tid', tid' ≠ tid → sh'.posting tid' = sh.posting tid') {entry : Entry ι κ}
    (hout : sh.Outstanding entry) : sh'.Outstanding entry := by
  by_cases heq : entry.tid = tid
  . subst heq
    exact .inl (h.event (hout.imp_right fun hposting => ⟨_, hposting⟩))
  . obtain hevent | hposting := hout
    . exact .inl (h.event (.inl hevent))
    . exact .inr (by rwa [hother entry.tid heq])

section

omit [DecidableEq κ]

variable {lim : Limits} {v v' : View ι} {own own' : Own ι κ} {r : ι} {o : Op ι κ} {input : Input}
  {b : o.Res} {node : Nat}

/-- A request comes to a FIFO by a claim. -/
theorem Ghost.waits_place (h : Ghost cfg lim o own sh b v v') (hwaits : (v'.place r).waits node)
    : (v.place r).waits node
      ∨ o = .casState r .queued .pending ∧ HEq b (none : Option ReqState) := by
  have hput (r' : ι) (place : Place) : (v.put r' place).place r
      = if r = r' then place else v.place r := by
    simp [View.put, Function.update_apply]
  cases h with
  | @claimPending r' _ _ _ m hplace =>
    by_cases heq : r = r'
    . exact .inr ⟨by rw [heq], HEq.rfl⟩
    . rw [hput, if_neg heq] at hwaits
      exact .inl hwaits
  | linkFirst hplace | link hplace =>
    simp only [View.setFifo, hput] at hwaits
    split at hwaits
    next heq => exact .inl (by simpa [heq, hplace, Place.waits] using hwaits)
    next => exact .inl hwaits
  | clearJoining hplace =>
    rw [hput] at hwaits
    split at hwaits
    next heq => exact .inl (by simpa [heq, hplace, Place.waits] using hwaits)
    next => exact .inl hwaits
  | promote | popPromoted | popCanceled | unlink =>
    simp only [View.setFifo, hput] at hwaits
    split at hwaits
    next => simp [Place.waits] at hwaits
    next => exact .inl hwaits
  | detach =>
    simp only [View.detach] at hwaits
    split at hwaits
    next => simp [Place.waits] at hwaits
    next => exact .inl hwaits
  | @receiveSdo by_ r' =>
    by_cases heq : r = r'
    . simp [View.put, heq, Place.waits] at hwaits
    . exact .inl (by simpa [View.put, View.taken, heq] using hwaits)
  | takeDetached | loadDropped | claimActive | claimDoomed | claimTeardown | claimFailed | activate
  | release | setResult | hold | unhold | publish | send | finish | stage =>
    simp only [hput] at hwaits
    split at hwaits
    next => simp [Place.waits] at hwaits
    next => exact .inl hwaits
  | _ => exact .inl hwaits

/-- The owner does not change the state of a request that waits before and after the step. -/
theorem Ghost.waits (h : Ghost cfg lim o own sh b v v') (hexec : o.run input own sh = (b, own', sh'))
    (hwaits : (v'.place r).waits node)
    : (v.place r).waits node ∧ (sh'.heap r).state = (sh.heap r).state
      ∨ (sh'.heap r).state = .pending ∧ (sh.heap r).state = .queued := by
  obtain hst | ⟨expected, desired, rfl, hb, hold, hnew⟩ := run_state_cases hexec r
  . refine .inl ⟨(h.waits_place hwaits).resolve_right ?_, hst⟩
    rintro ⟨rfl, hb⟩
    cases hb
    obtain ⟨hold, _, rfl⟩ := run_casState_none hexec
    simp [Shared.setState, Shared.modify_heap, hold] at hst
  . cases h with
    | look hlooks => simp [Op.looks] at hlooks
    | claimPending => exact .inr ⟨hnew, hold⟩
    | claimFailed | promoteFailed | publishFailed | stageFailed => cases hb
    | promote => simp [View.setFifo, Place.waits] at hwaits
    | claimActive | claimDoomed | claimTeardown | publish | stage => simp [Place.waits] at hwaits

/-- Why a node is settled after a step of the owner. -/
theorem Ghost.settled_cases (h : Ghost cfg lim o own sh b v v') (hsettled : v'.settled node ≠ .no)
    : v.settled node = v'.settled node ∧ v'.phase.old = v.phase.old ∧ o ≠ .receive
      ∨ v.phase.old = 0 ∧ v'.phase = v.phase ∧ v'.fifo = v.fifo
        ∧ ((∃ r rest st, v.fifo node = r :: rest ∧ v.place r = .fifo node
          ∧ o = .casState r .pending .active ∧ HEq b (some st : Option ReqState)
          ∧ v'.settled node = .head)
        ∨ ∃ r, v.place r = .fifo node ∧ v.phase.target = none ∧ o = .loadState r
          ∧ HEq b ReqState.cancelPending ∧ v'.settled node = .command) := by
  have hset (m : Nat) (v : View ι) (l : List ι) (hset : (v.setFifo m l).settled node ≠ .no)
      : v.settled node = (v.setFifo m l).settled node := by
    simp only [View.setFifo, Function.update_apply] at hset ⊢
    split at hset
    next heq =>
      split at hset
      next => exact absurd rfl hset
      next hne => simp [heq, hne]
    next heq => simp [heq]
  cases h with
  | linkFirst | link | promote | popPromoted | popCanceled | unlink =>
    exact .inl ⟨hset _ (v.put _ _) _ hsettled, rfl, by simp⟩
  | @detach _ _ _ _ m => exact .inl ⟨hset m v [] hsettled, rfl, by simp⟩
  | @promoteFailed r st _ _ _ m rest hplace hfifo hold =>
    by_cases heq : node = m
    . subst heq
      exact .inr ⟨hold, rfl, rfl, .inl ⟨r, rest, st, hfifo, hplace, rfl, HEq.rfl,
        by simp [View.setSettled]⟩⟩
    . exact .inl ⟨by simp [View.setSettled, heq], rfl, by simp⟩
  | @loadSettled r _ _ _ m hplace hold htarget =>
    by_cases heq : node = m
    . subst heq
      exact .inr ⟨hold, rfl, rfl, .inr ⟨r, hplace, htarget, rfl, HEq.rfl,
        by simp [View.setSettled]⟩⟩
    . exact .inl ⟨by simp [View.setSettled, heq], rfl, by simp⟩
  | receiveSdo | receiveCancel | receiveOther | receive => simp [View.taken, View.put] at hsettled
  | look hlooks =>
    refine .inl ⟨rfl, rfl, ?_⟩
    rintro rfl
    simp [Op.looks] at hlooks
  | _ => exact .inl ⟨rfl, rfl, by simp⟩

/-- A node stays settled by its head only as long as its FIFO stays as it is. -/
theorem Ghost.head_fifo (h : Ghost cfg lim o own sh b v v') (hsettled : v'.settled node = .head)
    : v'.fifo node = v.fifo node := by
  have hset (m : Nat) (v : View ι) (l : List ι) (hset : (v.setFifo m l).settled node = .head)
      : (v.setFifo m l).fifo node = v.fifo node := by
    simp only [View.setFifo, Function.update_apply] at hset ⊢
    split at hset
    next heq =>
      split at hset
      next => cases hset
      next hne => exact absurd hset hne
    next heq => simp [heq]
  cases h with
  | linkFirst | link | promote | popPromoted | popCanceled | unlink | detach =>
    exact hset _ _ _ hsettled
  | _ => rfl

/-- A run that closes keeps closing. -/
theorem Ghost.closing (h : Ghost cfg lim o own sh b v v') (hclosing : v.phase.closing = true)
    : v'.phase.closing = true := by
  cases h with
  | latch => rfl
  | _ => exact hclosing

theorem Ghost.not_closing (h : Ghost cfg lim o own sh b v v') (hopen : v'.phase.closing = false)
    : v.phase.closing = false := by
  by_contra hclosing
  simp [h.closing (by simpa using hclosing)] at hopen

/-- The owner does not change the state of a request that is in the FIFO of a settled node. -/
theorem Ghost.head_state (h : Ghost cfg lim o own sh b v v')
    (hexec : o.run input own sh = (b, own', sh')) (hlists : Lists cfg own sh v)
    (hsettled : v'.settled node = .head) (hr : r ∈ v.fifo node)
    : (sh'.heap r).state = (sh.heap r).state := by
  obtain hst | ⟨expected, desired, rfl, hb, _⟩ := run_state_cases hexec r
  . exact hst
  . have hplace := (hlists.mem_fifo node r).mp hr
    cases h with
    | look hlooks => simp [Op.looks] at hlooks
    | claimFailed | promoteFailed | publishFailed | stageFailed => cases hb
    | promote _ hfifo =>
      obtain rfl : _ = node := by simpa [hfifo] using hplace
      simp only [View.setFifo, Function.update_self] at hsettled
      split at hsettled
      next => cases hsettled
      next hne => exact absurd hsettled hne
    | claimPending hother | claimActive hother | claimDoomed hother | claimTeardown hother
    | publish hother | stage _ hother => simp [hother] at hplace

end

namespace Wake

variable {lim : Limits} {v v' : View ι} {own own' : Own ι κ} {r : ι}

/-- A step of another thread only appends to the queue, and loses no event. -/
theorem grows (h : Wake lim sh v) (hstep : CommandStep cfg tid sh sh')
    (hother : ∀ tid', tid' ≠ tid → sh'.posting tid' = sh.posting tid')
    : v.phase.old ≤ sh'.queue.length
      ∧ (∀ entry ∈ sh'.queue.drop v.phase.old, sh'.Outstanding entry)
      ∧ ∀ entry ∈ sh.queue, entry ∈ sh'.queue := by
  obtain ⟨pushed, hqueue, _, hpushed⟩ := hstep.queue
  have hold := h.old_le
  rw [hqueue]
  refine ⟨by simp only [List.length_append]; omega, ?_, fun entry hentry => by simp [hentry]⟩
  intro entry hentry
  rw [List.drop_append_of_le_length hold, List.mem_append] at hentry
  obtain hentry | hentry := hentry
  . exact hstep.outstanding hother (h.outstanding entry hentry)
  . obtain ⟨rfl, hevent⟩ := hpushed entry hentry
    exact .inr hevent

omit [DecidableEq ι] [DecidableEq κ] in
theorem same_headWakes (hsame : SameRequests sh sh') (h : sh.HeadWakes r) : sh'.HeadWakes r := by
  obtain ⟨bit, hheap⟩ := hsame.heap r
  unfold Shared.HeadWakes
  rw [hheap, hsame.app]
  exact h.imp_right (Or.imp_right (And.imp_right (Or.imp_left hsame.event)))

omit [DecidableEq ι] [DecidableEq κ] in
/-- A step beside the requests, which may append to the queue. -/
theorem same (h : Wake lim sh v) (hsame : SameRequests sh sh')
    (hold : v.phase.old ≤ sh'.queue.length)
    (hout : ∀ entry ∈ sh'.queue.drop v.phase.old, sh'.Outstanding entry)
    (hmem : ∀ entry ∈ sh.queue, entry ∈ sh'.queue) : Wake lim sh' v where
  uniqueIds := by
    intro hlim r r'
    obtain ⟨bit, hheap⟩ := hsame.heap r
    obtain ⟨bit', hheap'⟩ := hsame.heap r'
    rw [hheap, hheap']
    exact h.uniqueIds hlim r r'
  old_le := hold
  outstanding := hout
  canceled := by
    intro hlim hopen r node hwaits hcancel
    obtain ⟨bit, hheap⟩ := hsame.heap r
    rw [hheap, hsame.app] at hcancel
    exact (h.canceled hlim hopen r node hwaits hcancel).imp_left (hmem _)
  old_eq := h.old_eq
  head := by
    intro node hsettled
    obtain ⟨r, rest, hfifo, hwakes⟩ := h.head node hsettled
    exact ⟨r, rest, hfifo, hwakes.imp_left (same_headWakes hsame)⟩
  command := by
    intro hlim hopen node hsettled
    obtain ⟨entry, hentry, hid⟩ := h.command hlim hopen node hsettled
    exact ⟨entry, hmem entry hentry, hid⟩

variable [Fintype ι] {eff : Effect ι κ} {pc : AppPc} {request : Request ι} {evs : List ReqEvent}

/-- What the application thread of the head does to it wakes the owner, or the run is closing. -/
theorem app_headWakes (hrequests : Requests own sh v) (hpins : Pins own sh v)
    (hm : AppMove cfg r sh (sh.app r) (sh.heap r) eff pc request evs) {r' : ι}
    (h : sh.HeadWakes r')
    : ((eff.apply cfg r sh).settle r pc request evs).HeadWakes r' ∨ v.phase.closing = true := by
  obtain ⟨hheap, _, happ, _, _, hevent⟩ := Effect.apply_same cfg r sh eff
  by_cases heq : r' = r
  . subst heq
    have hadmits := (hrequests r').pc_admits
    have hunpinned := hpins.unpinned r'
    unfold Shared.HeadWakes at *
    rw [Shared.settle_heap_self, Shared.settle_app_self]
    have hevent' : sh.eventCommand = true →
        ((eff.apply cfg r' sh).settle r' pc request evs).eventCommand = true := hevent
    generalize sh.app r' = old at *
    generalize sh.heap r' = oldRequest at *
    have hkeep (hst : request.state = oldRequest.state) (hpc : ∀ ctx err, old ≠ .wake ctx err)
        : (request.state = .pendingCancelPinned ∨ request.state = .cancelPending
          ∨ request.state = .pending
            ∧ (((eff.apply cfg r' sh).settle r' pc request evs).eventCommand = true
              ∨ ∃ ctx err, pc = .wake ctx err)) ∨ v.phase.closing = true := by
      rw [hst]
      refine .inl (h.imp_right (Or.imp_right (And.imp_right ?_)))
      rintro (hnow | ⟨ctx, err, heq⟩)
      . exact .inl (hevent' hnow)
      . exact absurd heq (hpc ctx err)
    cases hm with
    | postQueued | postNew | cancelQueued => simp_all [AppPc.admits]
    | @pin _ kind hst => cases kind <;> simp_all [PinKind.base, PinKind.pinned]
    | unpinWake => simp_all
    | @unpin _ ctx err hst hpin herr =>
      cases hkind : ctx.kind <;> simp_all [PinKind.pinned, releasedState]
    | @unpinRet _ ctx err hst hpin =>
      cases hkind : ctx.kind with
      | active => simp_all [PinKind.pinned]
      | pending =>
        by_cases herr : err = .ok
        . simp [releasedState, herr]
        . exact .inr (hunpinned ctx hkind hpin (.inl ⟨err, rfl⟩))
    | wake => simp_all [AppPc.admits, ReqState.pinned, Effect.apply, Shared.settle]
    | @unpinDone _ ctx _ hst => cases hkind : ctx.kind <;> simp_all [PinKind.staged]
    | cancelNext hretry | cancelRet hretry =>
      refine hkeep rfl ?_
      obtain rfl | ⟨_, rfl⟩ | rfl := AppPc.retrying_cases hretry <;> simp
    | _ => exact hkeep rfl (by simp)
  . left
    unfold Shared.HeadWakes
    simp only [Shared.settle, Function.update_of_ne heq, hheap, happ]
    exact h.imp_right (Or.imp_right (And.imp_right (Or.imp_left hevent)))

omit [Fintype ι] in
/-- The command of a cancel call that went on is in the queue. -/
theorem app_canceled (hrequests : Requests own sh v) (hidents : Idents sh v)
    (h : ∀ node, (v.place r).waits node →
      (sh.heap r).state = .cancelPending ∨ (sh.app r).cancelSent →
      ⟨.app r, .sdoCancel node (v.ident r)⟩ ∈ sh.queue ∨ v.phase.target = some (node, v.ident r))
    (hm : AppMove cfg r sh (sh.app r) (sh.heap r) eff pc request evs) {node : Nat}
    (hwaits : (v.place r).waits node)
    (hcancel : request.state = .cancelPending ∨ pc.cancelSent)
    : ⟨.app r, .sdoCancel node (v.ident r)⟩ ∈ (eff.apply cfg r sh).queue
      ∨ v.phase.target = some (node, v.ident r) := by
  obtain ⟨hqueue, _⟩ := hm.queue
  have hkeep (hold : (sh.heap r).state = .cancelPending ∨ (sh.app r).cancelSent)
      : ⟨.app r, .sdoCancel node (v.ident r)⟩ ∈ (eff.apply cfg r sh).queue
        ∨ v.phase.target = some (node, v.ident r) := by
    rw [hqueue]
    exact (h node hwaits hold).imp_left (List.mem_append_left _)
  have hheld : v.place r ≠ .away := by
    intro haway
    simp [haway, Place.waits] at hwaits
  have hnode : (sh.heap r).nodeId = node := by
    apply (hrequests r).node_eq
    revert hwaits
    cases v.place r <;> simp [Place.waits, Place.node?]
  have hplace := (hrequests r).place_admits
  have hctx := (hrequests r).ctx_eq
  have hid := hidents r hheld
  generalize sh.app r = old at *
  generalize sh.heap r = oldRequest at *
  cases hm with
  | @cancelCommand _ ctx old next hres =>
    have hafter := commandPostStep_after cfg (.app r) (.sdoCancel ctx.nodeId ctx.requestId) old sh
    rw [hres] at hafter
    obtain hst | hsent := hcancel
    . exact hkeep (.inl hst)
    . simp only [PostPc.after, decide_eq_true_eq] at hafter
      simp only [AppPc.cancelSent] at hsent hkeep
      rw [hsent] at hafter
      by_cases hold : old.sent
      . exact hkeep (.inr hold)
      . left
        obtain ⟨hsend, hevent⟩ : old = .send ∧ next = .event := by simpa [hold] using hafter
        obtain ⟨_, hctxNode, hctxId⟩ := hctx ctx rfl
        have hpushed : (⟨.app r, .sdoCancel node (v.ident r)⟩ : Entry ι κ)
            ∈ (AppPc.cancelCommand ctx old).pushed r (.cancelCommand ctx next) := by
          simp [hsend, hevent, AppPc.pushed, hctxNode, hctxId, hnode, hid]
        rw [hqueue]
        exact List.mem_append_right _ hpushed
  | @cancelPosted _ ctx old err hres =>
    have hafter := commandPostStep_after cfg (.app r) (.sdoCancel ctx.nodeId ctx.requestId) old sh
    rw [hres] at hafter
    obtain hst | hsent := hcancel
    . exact hkeep (.inl hst)
    . simp only [AppPc.cancelSent, decide_eq_true_eq] at hsent
      simp only [hsent, PostPc.after, decide_eq_true_eq] at hafter
      exact hkeep (.inr (by simp [hafter, AppPc.cancelSent, PostPc.sent]))
  | @unpin _ ctx err hst | @unpinRet _ ctx err hst =>
    obtain ⟨_, herr, _⟩ | ⟨_, hreleased⟩ := releasedState_cases ctx.kind err
    . exact hkeep (.inr (by simp [AppPc.cancelSent, herr]))
    . rw [hreleased] at hcancel
      cases hkind : ctx.kind <;> simp [hkind, AppPc.cancelSent, PinKind.base] at hcancel
  | cancelQueued hst =>
    revert hwaits
    cases hp : v.place r <;> simp_all [Place.waits, Place.admits]
  | cancelNext hretry hnext =>
    obtain ⟨_, rfl⟩ | ⟨_, _, rfl⟩ := cancelNext_inl hnext
      <;> exact hkeep (.inl (by simpa [AppPc.cancelSent] using hcancel))
  | @pin _ kind => cases kind <;> simp [PinKind.pinned, AppPc.cancelSent] at hcancel
  | postQueued | postNew | unpinWake | unpinDone => simp [AppPc.cancelSent] at hcancel
  | postFill | postClear =>
    exact hkeep (.inl (by simpa [AppPc.cancelSent, PostArgs.fill, Request.clear] using hcancel))
  | cancelActive | callbackCheck =>
    exact hkeep (.inl (by simpa [AppPc.cancelSent, PostPc.sent] using hcancel))
  | _ => exact hkeep (.inl (by simpa [AppPc.cancelSent] using hcancel))

theorem app (h : Wake lim sh v) (hrequests : Requests own sh v) (hpins : Pins own sh v)
    (hidents : Idents sh v)
    (hm : AppMove cfg r sh (sh.app r) (sh.heap r) eff pc request evs)
    (hunique : lim.uniqueIds → UniqueIds ((eff.apply cfg r sh).settle r pc request evs))
    : Wake lim ((eff.apply cfg r sh).settle r pc request evs) v := by
  obtain ⟨hheap, _, happ, _⟩ := Effect.apply_same cfg r sh eff
  obtain ⟨hold, hout, hmem⟩ := h.grows hm.commandStep
    (fun tid htid => AppMove.posting_of_ne eff pc request evs htid)
  exact
    {
      uniqueIds := hunique
      old_le := hold
      outstanding := hout
      canceled := by
        intro hlim hopen r' node hwaits hcancel
        by_cases heq : r' = r
        . subst heq
          rw [Shared.settle_heap_self, Shared.settle_app_self] at hcancel
          exact app_canceled hrequests hidents (h.canceled hlim hopen r') hm hwaits hcancel
        . simp only [Shared.settle, Function.update_of_ne heq, hheap, happ] at hcancel
          exact (h.canceled hlim hopen r' node hwaits hcancel).imp_left (hmem _)
      old_eq := h.old_eq
      head := by
        intro node hsettled
        obtain ⟨r', rest, hfifo, hwakes⟩ := h.head node hsettled
        refine ⟨r', rest, hfifo, ?_⟩
        obtain hwakes | hclosing := hwakes
        . exact app_headWakes hrequests hpins hm hwakes
        . exact .inr hclosing
      command := by
        intro hlim hopen node hsettled
        obtain ⟨entry, hentry, hid⟩ := h.command hlim hopen node hsettled
        exact ⟨entry, hmem entry hentry, hid⟩
    }

variable {o : Op ι κ} {input : Input} {b : o.Res}

omit [Fintype ι] [DecidableEq κ] in
/-- The owner never makes a request unfinished. -/
theorem exec_uniqueIds (h : UniqueIds sh) (hexec : o.run input own sh = (b, own', sh'))
    (hghost : Ghost cfg lim o own sh b v v') (hrequests : Requests own sh v)
    : UniqueIds sh' := by
  have hlive (r : ι) (hnow : (sh'.heap r).live) : (sh.heap r).live := by
    obtain hst | ⟨expected, desired, rfl, hb, hold, _⟩ := run_state_cases hexec r
    . simpa only [Request.live, hst] using hnow
    . have hheld : v.place r ≠ .away ∧ ∀ sent, v.place r ≠ .published sent := by
        cases hghost with
        | look hlooks => simp [Op.looks] at hlooks
        | claimPending hplace | claimActive hplace | claimDoomed hplace | claimTeardown hplace
        | claimFailed hplace | promote _ hplace | promoteFailed hplace | publish hplace
        | publishFailed hplace | stage _ hplace | stageFailed _ hplace => simp [hplace]
      exact (hrequests r).live hheld.1 hheld.2
  intro r r' hr hr' hnode hid
  have hident := run_ident (o := o) input own sh
  simp only [hexec] at hident
  rw [(hident r).1, (hident r').1] at hid
  rw [(hident r).2.1, (hident r').2.1] at hnode
  exact h r r' (hlive r hr) (hlive r' hr') hnode hid

omit [Fintype ι] [DecidableEq κ] in
/-- Commands leave the queue one at a time from its front. -/
theorem exec_queue (hexec : o.run input own sh = (b, own', sh'))
    (hghost : Ghost cfg lim o own sh b v v')
    (hempty : v.phase.created = false ∨ v.phase.drained = true → sh.queue = [])
    : sh'.queue = sh.queue
        ∧ (v'.phase.old = v.phase.old ∨ o = .receive ∧ v'.phase.old = sh.queue.length)
      ∨ ∃ entry by_, sh.queue = entry :: sh'.queue ∧ o = .mqReceive by_
        ∧ HEq b (some entry.command : Option (Command ι κ)) ∧ v'.phase.old = v.phase.old - 1
        ∧ v'.settled = fun _ => .no := by
  have hkeeps (ho : o.keepsCommands) : sh'.queue = sh.queue := by
    have hsame := (run_commands input own sh ho).2.1
    simp only [hexec] at hsame
    simp only [Shared.queue, hsame]
  cases hghost with
  | receiveSdo | receiveCancel | receiveOther =>
    obtain ⟨entry, rest, hqueue, hcommand, rfl, rfl⟩ := run_mqReceive_some hexec
    exact .inr ⟨entry, _, hqueue, rfl, heq_of_eq (by rw [hcommand]), rfl, rfl⟩
  | receiveNone | emptyQueue =>
    obtain ⟨_, rfl, rfl⟩ := run_mqReceive_none hexec
    exact .inl ⟨rfl, .inl rfl⟩
  | create hcreated =>
    cases hexec
    exact .inl ⟨(hempty (.inl hcreated)).symm, .inl rfl⟩
  | delete hdrained =>
    cases hexec
    exact .inl ⟨(hempty (.inr hdrained)).symm, .inl rfl⟩
  | latch =>
    cases hexec
    exact .inl ⟨rfl, .inl rfl⟩
  | receive => exact .inl ⟨hkeeps rfl, .inr ⟨rfl, rfl⟩⟩
  | look hlooks =>
    obtain ⟨rfl, rfl⟩ := run_looks hexec hlooks
    exact .inl ⟨rfl, .inl rfl⟩
  | _ => exact .inl ⟨hkeeps rfl, .inl rfl⟩

omit [Fintype ι] [DecidableEq κ] in
theorem exec_posting (hexec : o.run input own sh = (b, own', sh')) : sh'.posting = sh.posting := by
  have hthreads := run_threads (o := o) input own sh
  simp only [hexec] at hthreads
  obtain ⟨happ, hposter, _⟩ := hthreads
  funext tid
  cases tid with
  | app r => simp only [Shared.posting, happ]
  | poster i => simp only [Shared.posting, hposter]

omit [Fintype ι] [DecidableEq κ] in
theorem exec_outstanding (h : Wake lim sh v) (hexec : o.run input own sh = (b, own', sh'))
    (hghost : Ghost cfg lim o own sh b v v')
    (hempty : v.phase.created = false ∨ v.phase.drained = true → sh.queue = [])
    : v'.phase.old ≤ sh'.queue.length
      ∧ ∀ entry ∈ sh'.queue.drop v'.phase.old, sh'.Outstanding entry := by
  have hold := h.old_le
  have hkeeps (ho : o ≠ .receive) (entry : Entry ι κ) (hout : sh.Outstanding entry)
      : sh'.Outstanding entry := by
    have hevent := run_event input own sh ho
    simp only [hexec] at hevent
    simpa only [Shared.Outstanding, hevent, exec_posting hexec] using hout
  obtain ⟨hqueue, hold' | ⟨_, hold'⟩⟩ | ⟨entry, by_, hqueue, rfl, _, hold', _⟩ :=
    exec_queue hexec hghost hempty
  . rw [hqueue, hold']
    refine ⟨hold, ?_⟩
    intro entry hentry
    by_cases ho : o = .receive
    . subst ho
      cases hghost with
      | look hlooks => simp [Op.looks] at hlooks
      | receive =>
        rw [← hold', List.drop_length] at hentry
        simp at hentry
    . exact hkeeps ho _ (h.outstanding entry hentry)
  . rw [hqueue, hold']
    simp
  . rw [hqueue] at hold
    simp only [List.length_cons] at hold
    rw [hold']
    refine ⟨by omega, ?_⟩
    intro entry' hentry
    apply hkeeps (by simp)
    apply h.outstanding
    rw [hqueue]
    cases hn : v.phase.old with
    | zero =>
      rw [hn] at hentry
      simpa using .inr hentry
    | succ n =>
      rw [hn] at hentry
      simpa using hentry

omit [Fintype ι] [DecidableEq κ] in
/-- A cancel command that leaves the queue is the one that is being dispatched. -/
theorem exec_target (hexec : o.run input own sh = (b, own', sh'))
    (hghost : Ghost cfg lim o own sh b v v')
    (hempty : v.phase.created = false ∨ v.phase.drained = true → sh.queue = [])
    {entry : Entry ι κ} {node : Nat} {id : BitVec 32} (hentry : entry.command = .sdoCancel node id)
    (hclear : o = .between → v.phase.target ≠ some (node, id))
    (h : entry ∈ sh.queue ∨ v.phase.target = some (node, id))
    : entry ∈ sh'.queue ∨ v'.phase.target = some (node, id) := by
  obtain ⟨hqueue, _⟩ | ⟨front, by_, hqueue, rfl, hb, _⟩ := exec_queue hexec hghost hempty
  . rw [hqueue]
    apply h.imp_right
    intro htarget
    cases hghost with
    | between => exact absurd htarget (hclear rfl)
    | receiveSdo _ _ hnone | receiveCancel hnone => simp [hnone] at htarget
    | _ => exact htarget
  . rw [hqueue, List.mem_cons] at h
    cases hghost with
    | look hlooks => simp [Op.looks] at hlooks
    | emptyQueue | receiveNone => cases hb
    | receiveSdo _ _ hnone =>
      simp only [hnone, reduceCtorEq, or_false] at h
      obtain rfl | hmem := h
      . rw [hentry] at hb
        cases eq_of_heq hb
      . exact .inl hmem
    | receiveCancel hnone =>
      simp only [hnone, reduceCtorEq, or_false] at h
      obtain rfl | hmem := h
      . rw [hentry] at hb
        cases hb
        exact .inr rfl
      . exact .inl hmem
    | receiveOther _ hcancel =>
      obtain (rfl | hmem) | htarget := h
      . rw [hentry] at hb
        exact absurd (Option.some_inj.mp (eq_of_heq hb)) (hcancel node id)
      . exact .inl hmem
      . exact .inr htarget

omit [Fintype ι] [DecidableEq κ] in
theorem exec (h : Wake lim sh v) (hexec : o.run input own sh = (b, own', sh'))
    (hghost : Ghost cfg lim o own sh b v v') (hrequests : Requests own sh v)
    (hlists : Lists cfg own sh v)
    (hempty : v.phase.created = false ∨ v.phase.drained = true → sh.queue = [])
    : Wake lim sh' v' := by
  have happ : sh'.app = sh.app := by
    have hthreads := (run_threads (o := o) input own sh).1
    simpa only [hexec] using hthreads
  obtain ⟨hold, hout⟩ := h.exec_outstanding hexec hghost hempty
  constructor
  case uniqueIds => exact fun hlim => exec_uniqueIds (h.uniqueIds hlim) hexec hghost hrequests
  case old_le => exact hold
  case outstanding => exact hout
  case canceled =>
    intro hlim hopen r node hwaits hcancel
    have hopened := hghost.not_closing hopen
    obtain ⟨hwaited, hst⟩ | ⟨hst, hqueued⟩ := hghost.waits hexec hwaits
    . rw [hst, happ] at hcancel
      have hident : v'.ident r = v.ident r := by
        have hheld : v'.place r ≠ .away := by
          intro haway
          simp [haway, Place.waits] at hwaits
        obtain ⟨_, hident⟩ | ⟨_, _, _, _, _, hfresh⟩ := hghost.held hlists hheld
        . exact hident
        . simp [hfresh, Place.waits] at hwaits
      rw [hident]
      refine exec_target hexec hghost hempty rfl ?_
        (h.canceled hlim hopened r node hwaited hcancel)
      rintro rfl
      cases hghost with
      | look hlooks => simp [Op.looks] at hlooks
      | between hrest hclear =>
        intro htarget
        have hmem : r ∈ v.fifo node := by
          rw [hlists.mem_fifo]
          have hhand := hlists.hand_iff r
          revert hwaited hhand
          cases v.place r <;> simp [Place.waits, Place.inHand, hrest.1]
        exact hclear hlim hopened node _ htarget r hmem rfl
    . rw [happ] at hcancel
      have hadmits := (hrequests r).pc_admits
      rw [hqueued] at hadmits
      obtain hcancel | hcancel := hcancel
      . simp [hst] at hcancel
      . revert hcancel hadmits
        cases sh.app r with
        | cancelCommand ctx pc | unpin ctx pc =>
          cases hkind : ctx.kind <;> simp [AppPc.admits, hkind, PinKind.pinned, PinKind.staged]
        | _ => simp [AppPc.cancelSent]
  case old_eq =>
    intro node hsettled
    obtain ⟨heq, hsame, _⟩ | ⟨hzero, hphase, _⟩ := hghost.settled_cases hsettled
    . rw [hsame]
      exact h.old_eq node (heq ▸ hsettled)
    . rw [hphase, hzero]
  case head =>
    intro node hsettled
    have hfifo := hghost.head_fifo hsettled
    obtain ⟨heq, _, ho⟩ | ⟨_, _, _, ⟨r, rest, st, hr, hplace, rfl, hb, _⟩ | ⟨_, _, _, _, _, hno⟩⟩ :=
      hghost.settled_cases (by rw [hsettled]; simp)
    . obtain ⟨r, rest, hr, hwakes⟩ := h.head node (heq ▸ hsettled)
      refine ⟨r, rest, by rw [hfifo, hr], ?_⟩
      have hst := hghost.head_state hexec hlists hsettled (r := r) (by simp [hr])
      have hevent := run_event input own sh ho
      simp only [hexec] at hevent
      refine hwakes.imp ?_ hghost.closing
      simp only [Shared.HeadWakes, hst, happ, hevent]
      exact id
    . refine ⟨r, rest, by rw [hfifo, hr], .inl ?_⟩
      cases hb
      obtain ⟨hne, _, _, rfl⟩ := run_casState_some hexec
      have hadmits := (hrequests r).place_admits
      simp only [hplace, Place.admits, Bool.decide_or, Bool.or_eq_true, decide_eq_true_eq] at hadmits
      obtain hst | hst | hst := hadmits
      . exact absurd hst hne
      . exact .inl hst
      . exact .inr (.inl hst)
    . simp [hsettled] at hno
  case command =>
    intro hlim hopen node hsettled
    have hopened := hghost.not_closing hopen
    obtain ⟨heq, _⟩ | ⟨_, _, _, ⟨_, _, _, _, _, _, _, hno⟩ | ⟨r, hplace, htarget, rfl, hb, _⟩⟩ :=
      hghost.settled_cases (by rw [hsettled]; simp)
    . obtain ⟨entry, hentry, hid⟩ := h.command hlim hopened node (heq ▸ hsettled)
      obtain ⟨hqueue, _⟩ | ⟨_, _, _, _, _, _, hno⟩ := exec_queue hexec hghost hempty
      . exact ⟨entry, hqueue ▸ hentry, hid⟩
      . simp [hno] at hsettled
    . simp [hsettled] at hno
    . cases hb
      obtain ⟨hst, rfl, rfl⟩ := run_loadState hexec
      have hwaits : (v.place r).waits node := by simp [hplace, Place.waits]
      have hentry := (h.canceled hlim hopened r node hwaits (.inl hst)).resolve_right
        (by simp [htarget])
      exact ⟨_, hentry, _, rfl⟩

end Wake

end

end LelyRtt
