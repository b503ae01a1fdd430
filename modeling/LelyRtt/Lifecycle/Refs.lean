import LelyRtt.Lifecycle.Handshake
import LelyRtt.Protocol.Commands

/-!
This module contains `command_refs` and `callback_refs` over the start and stop cycles of a runtime.
The controlling thread and the owner take the steps of `LelyRtt.Lifecycle`; between two of them they
run the accesses to the reference counts that stand there in the source. The other threads post
commands, cancel requests and enter callbacks whenever they like.
-/

namespace LelyRtt.Lifecycle.Refs

/-- The fields of the runtime that the references are about. -/
structure Fields where
  commandRefs : Int := 0
  commandStopLatched : Bool := false
  commandQuiescing : Bool := false
  /-- `command_mq` is there. -/
  commandMq : Bool := false
  callbackRefs : Int := 0
  callbackQuiescing : Bool := false
  deriving DecidableEq, Repr

/-- The accesses of the controlling thread and of the owner. -/
inductive Access where
  | storeCommandRefs
  | clearLatched
  | setLatched
  | setQuiescing
  | loadCommandRefs
  -- `lely_rtt_master_command_admission_open`
  | testOpen
  | clearQuiescing
  | testLatched
  | storeCallbackRefs
  | clearCallbackQuiescing
  | setCallbackQuiescing
  | loadCallbackRefs
  | createQueue
  | deleteQueue
  deriving DecidableEq, Repr

/-- `lely_rtt_master_command_prepare` -/
def commandPrepare : List Access := [.storeCommandRefs, .clearLatched, .setQuiescing]

/-- `lely_rtt_master_command_quiesce_begin` -/
def commandQuiesceBegin : List Access := [.setLatched, .setQuiescing]

/-- `lely_rtt_master_command_admission_open` -/
def commandAdmissionOpen : List Access := [.testOpen, .clearQuiescing, .testLatched]

/-- `lely_rtt_callbacks_init` -/
def callbacksInit : List Access := [.storeCallbackRefs, .clearCallbackQuiescing]

/-- `lely_rtt_owner_init` -/
def ownerInit : List Access := callbacksInit ++ [.createQueue]

/-- `lely_rtt_owner_cleanup` with `lely_rtt_master_command_fini` inlined -/
def ownerCleanup : List Access :=
  commandQuiesceBegin ++ [.loadCommandRefs, .setCallbackQuiescing] ++ commandQuiesceBegin
    ++ [.loadCommandRefs, .deleteQueue, .loadCallbackRefs]

/--
One access, with the accesses that are left after it. A wait loads its count again as long as it is not
zero. `hasNmt` is whether the run has a configured local Master.
-/
def access (hasNmt : Bool) (fields : Fields) (rest : List Access) : Access → Fields × List Access
  | .storeCommandRefs => ({ fields with commandRefs := 0 }, rest)
  | .clearLatched => ({ fields with commandStopLatched := false }, rest)
  | .setLatched => ({ fields with commandStopLatched := true }, rest)
  | .setQuiescing => ({ fields with commandQuiescing := true }, rest)
  | .loadCommandRefs =>
    (fields, if fields.commandRefs ≠ 0 then .loadCommandRefs :: rest else rest)
  | .testOpen =>
    (fields, if !fields.commandMq ∨ !hasNmt ∨ fields.commandStopLatched then [] else rest)
  | .clearQuiescing => ({ fields with commandQuiescing := false }, rest)
  | .testLatched => (fields, if fields.commandStopLatched then .setQuiescing :: rest else rest)
  | .storeCallbackRefs => ({ fields with callbackRefs := 0 }, rest)
  | .clearCallbackQuiescing => ({ fields with callbackQuiescing := false }, rest)
  | .setCallbackQuiescing => ({ fields with callbackQuiescing := true }, rest)
  | .loadCallbackRefs =>
    (fields, if fields.callbackRefs ≠ 0 then .loadCallbackRefs :: rest else rest)
  | .createQueue => ({ fields with commandMq := true }, rest)
  | .deleteQueue => ({ fields with commandMq := false }, rest)

/-- The calls that pin the runtime. -/
inductive Call where
  -- `lely_rtt_master_command_post`, also for a canceled request that is active
  | post
  -- `lely_rtt_sdo_request_cancel` of a pending request
  | cancel
  -- a CAN or timer callback
  | callback
  deriving DecidableEq, Repr

/-- Where a thread is in its call. -/
inductive ThreadPc where
  | idle
  -- `pinned` is whether the call holds a callback reference too
  | posting (pc : PostPc) (pinned : Bool)
  -- `lely_rtt_callback_acquire`, where `posts` is whether the call posts a command afterwards
  | load (posts : Bool)
  | add (posts : Bool)
  | check (posts : Bool)
  | undo
  -- the rest of the call, up to `lely_rtt_callback_release`
  | held
  deriving DecidableEq, Repr

namespace ThreadPc

/-- The thread is between the increment of `command_refs` and its decrement. -/
def holdsCommand : ThreadPc → Bool
  | .posting pc _ => pc.counted
  | _ => false

/-- The thread is between the increment of `callback_refs` and its decrement. -/
def holdsCallback : ThreadPc → Bool
  | .posting _ pinned => pinned
  | .check _ | .undo | .held => true
  | .idle | .load _ | .add _ => false

/-- Where the thread goes when `lely_rtt_master_command_post` has returned. -/
def posted (pinned : Bool) : ThreadPc := if pinned then .held else .idle

@[simp]
theorem holdsCommand_posting (pc : PostPc) (pinned : Bool)
    : (posting pc pinned).holdsCommand = pc.counted := rfl

@[simp]
theorem holdsCommand_posted (pinned : Bool) : (posted pinned).holdsCommand = false := by
  cases pinned <;> rfl

@[simp]
theorem holdsCallback_posting (pc : PostPc) (pinned : Bool)
    : (posting pc pinned).holdsCallback = pinned := rfl

@[simp]
theorem holdsCallback_posted (pinned : Bool) : (posted pinned).holdsCallback = pinned := by
  cases pinned <;> rfl

def start : Call → ThreadPc
  | .post => .posting .latched false
  | .cancel => .load true
  | .callback => .load false

end ThreadPc

/-- One step of a thread. `call` is what an idle thread calls, `full` whether the queue is full. -/
def threadStep (call : Call) (full : Bool) (fields : Fields) : ThreadPc → Fields × ThreadPc
  | .idle => (fields, .start call)
  | .posting .latched pinned =>
    (fields, if fields.commandStopLatched then .posted pinned else .posting .quiescing pinned)
  | .posting .quiescing pinned =>
    (fields, if fields.commandQuiescing then .posted pinned else .posting .add pinned)
  | .posting .add pinned =>
    ({ fields with commandRefs := fields.commandRefs + 1 }, .posting .latchedAgain pinned)
  | .posting .latchedAgain pinned =>
    (fields, .posting (if fields.commandStopLatched then .undo else .quiescingAgain) pinned)
  | .posting .quiescingAgain pinned =>
    (fields, .posting (if fields.commandQuiescing then .undo else .queue) pinned)
  | .posting .undo pinned =>
    ({ fields with commandRefs := fields.commandRefs - 1 }, .posted pinned)
  | .posting .queue pinned =>
    (fields, .posting (if fields.commandMq then .send else .release .busy) pinned)
  | .posting .send pinned => (fields, .posting (if full then .release .full else .event) pinned)
  | .posting .event pinned => (fields, .posting (.release .ok) pinned)
  | .posting (.release _) pinned =>
    ({ fields with commandRefs := fields.commandRefs - 1 }, .posted pinned)
  | .load posts => (fields, if fields.callbackQuiescing then .idle else .add posts)
  | .add posts => ({ fields with callbackRefs := fields.callbackRefs + 1 }, .check posts)
  | .check posts =>
    (fields,
      if fields.callbackQuiescing then .undo else if posts then .posting .latched true else .held)
  | .undo => ({ fields with callbackRefs := fields.callbackRefs - 1 }, .idle)
  | .held => ({ fields with callbackRefs := fields.callbackRefs - 1 }, .idle)

structure State where
  life : Lifecycle.State := {}
  fields : Fields := {}
  /-- The accesses that the controlling thread makes before its next step of `life`. -/
  control : List Access := []
  /-- The accesses that the owner makes before its next step of `life`. -/
  owner : List Access := []
  threads : List ThreadPc := []

/-- The accesses behind a step of the controlling thread. -/
def controlAccesses : Control → Control → List Access
  | .startClear, .startReset => commandPrepare
  | .startReady _, .startGiveUp _ => commandQuiesceBegin
  | .idle _, .stopSend _ => commandQuiesceBegin
  | _, _ => []

/-- The accesses of the owner behind a step of the controlling thread, which may create the owner. -/
def createdAccesses (before after : Control) (owner : List Access) : List Access :=
  match before, after with
  | .startStartup _, .startReady _ => ownerInit
  | _, _ => owner

/--
The accesses behind a step of the owner, if those that it has left allow the step. The initialization
may fail before or after `lely_rtt_callbacks_init`.
-/
def ownerAccesses (before after : Phase) (owner : List Access) : Option (List Access) :=
  if before = after then
    some owner
  else
    match before, after with
    | .init, .failing =>
      if owner ≠ ownerInit ∧ .clearCallbackQuiescing ∈ owner then none else some ownerCleanup
    | .init, .opening => if owner = [] then some commandAdmissionOpen else none
    | .loop, .leaving _ => some ownerCleanup
    | _, _ => if owner = [] then some [] else none

inductive Step (hasNmt : Bool) (s : State) : State → Prop
  | thread (j : Nat) (pc : ThreadPc) (call : Call) (full : Bool) : s.threads[j]? = some pc →
      Step hasNmt s
        {
          s with
            fields := (threadStep call full s.fields pc).1
            threads := s.threads.set j (threadStep call full s.fields pc).2
        }
  | controlAccess (a : Access) (rest : List Access) : s.control = a :: rest →
      Step hasNmt s
        {
          s with
            fields := (access hasNmt s.fields rest a).1
            control := (access hasNmt s.fields rest a).2
        }
  | ownerAccess (a : Access) (rest : List Access) : s.owner = a :: rest →
      Step hasNmt s
        {
          s with
            fields := (access hasNmt s.fields rest a).1
            owner := (access hasNmt s.fields rest a).2
        }
  | control (life : Lifecycle.State) : s.control = [] → ControlStep s.life life →
      Step hasNmt s
        {
          s with
            life := life
            control := controlAccesses s.life.control life.control
            owner := createdAccesses s.life.control life.control s.owner
        }
  | owner (i : Nat) (life : Lifecycle.State) (owner : List Access) : OwnerStep s.life i life →
      ownerAccesses (s.life.owners i).phase (life.owners i).phase s.owner = some owner →
      Step hasNmt s { s with life := life, owner := owner }

/-- The states of a run from a new runtime, in which `n` other threads run. -/
structure Run (hasNmt : Bool) (n : Nat) (run : List State) : Prop where
  start : run.head? = some { threads := List.replicate n .idle }
  steps : run.IsChain (Step hasNmt)

namespace State

/-- How many threads are between the increment of `command_refs` and its decrement. -/
def posting (s : State) : Nat := s.threads.countP ThreadPc.holdsCommand

/-- How many threads are between the increment of `callback_refs` and its decrement. -/
def calling (s : State) : Nat := s.threads.countP ThreadPc.holdsCallback

/-- The counts are the numbers of threads that hold a reference. -/
structure Counted (s : State) : Prop where
  command : s.fields.commandRefs = s.posting
  callback : s.fields.callbackRefs = s.calling

/--
What the reference counts promise: they count, they are never negative, and the owner leaves a wait
with its next access when the threads that it waits for have left.
-/
structure RefsOk (hasNmt : Bool) (s : State) : Prop where
  counted : s.Counted
  command_nonneg : 0 ≤ s.fields.commandRefs
  callback_nonneg : 0 ≤ s.fields.callbackRefs
  command_wait : ∀ rest, s.owner = .loadCommandRefs :: rest → s.posting = 0 →
    Step hasNmt s { s with owner := rest }
  callback_wait : ∀ rest, s.owner = .loadCallbackRefs :: rest → s.calling = 0 →
    Step hasNmt s { s with owner := rest }

/-- The step from `s` to `s'` is the access `a` of the controlling thread or of the owner. -/
def Makes (s s' : State) (a : Access) : Prop :=
  s'.life = s.life ∧ (s.control = a :: s'.control ∨ s.owner = a :: s'.owner)

/-- If this is a step that stores a zero, then no thread holds such a reference. -/
structure Clean (s s' : State) : Prop where
  command : s.Makes s' .storeCommandRefs → s.posting = 0
  callback : s.Makes s' .storeCallbackRefs → s.calling = 0

end State

section

variable {hasNmt : Bool} {n : Nat} {run : List State} {s s' : State}

/-- A thread changes `command_refs` by what it takes or gives back. -/
theorem threadStep_commandRefs (call : Call) (full : Bool) (fields : Fields) (pc : ThreadPc)
    : (threadStep call full fields pc).1.commandRefs + (if pc.holdsCommand then 1 else 0)
      = fields.commandRefs
        + (if (threadStep call full fields pc).2.holdsCommand then 1 else 0) := by
  cases pc with
  | idle => cases call <;> rfl
  | posting pc pinned =>
    cases pc <;> simp only [threadStep, apply_ite ThreadPc.holdsCommand, apply_ite PostPc.counted,
      ThreadPc.holdsCommand_posting, ThreadPc.holdsCommand_posted] <;> simp [PostPc.counted]
  | load posts =>
    cases hquiescing : fields.callbackQuiescing <;> simp [threadStep, hquiescing, ThreadPc.holdsCommand]
  | add posts => rfl
  | check posts =>
    cases hquiescing : fields.callbackQuiescing <;> cases posts
      <;> simp [threadStep, hquiescing, ThreadPc.holdsCommand, PostPc.counted]
  | undo | held => rfl

/-- A thread changes `callback_refs` by what it takes or gives back. -/
theorem threadStep_callbackRefs (call : Call) (full : Bool) (fields : Fields) (pc : ThreadPc)
    : (threadStep call full fields pc).1.callbackRefs + (if pc.holdsCallback then 1 else 0)
      = fields.callbackRefs
        + (if (threadStep call full fields pc).2.holdsCallback then 1 else 0) := by
  cases pc with
  | idle => cases call <;> rfl
  | posting pc pinned =>
    cases pc <;> cases pinned <;> simp [threadStep, apply_ite ThreadPc.holdsCallback]
  | load posts =>
    cases hquiescing : fields.callbackQuiescing <;> simp [threadStep, hquiescing, ThreadPc.holdsCallback]
  | add posts => simp [threadStep, ThreadPc.holdsCallback]
  | check posts =>
    cases hquiescing : fields.callbackQuiescing <;> cases posts
      <;> simp [threadStep, hquiescing, ThreadPc.holdsCallback]
  | undo | held => simp [threadStep, ThreadPc.holdsCallback]

theorem countP_set_add (p : ThreadPc → Bool) {threads : List ThreadPc} {j : Nat} {pc : ThreadPc}
    (pc' : ThreadPc) (h : threads[j]? = some pc)
    : (threads.set j pc').countP p + (if p pc then 1 else 0)
      = threads.countP p + (if p pc' then 1 else 0) := by
  obtain ⟨hj, rfl⟩ := List.getElem?_eq_some_iff.mp h
  rw [List.countP_set hj]
  have hpos : p threads[j] → 0 < threads.countP p :=
    fun hp => List.countP_pos_iff.mpr ⟨_, List.getElem_mem hj, hp⟩
  split
  next hp =>
    have hpos := hpos hp
    omega
  next => omega

theorem State.Counted.thread {call : Call} {full : Bool} {j : Nat} {pc : ThreadPc} (h : s.Counted)
    (hj : s.threads[j]? = some pc)
    : State.Counted {
        s with
          fields := (threadStep call full s.fields pc).1
          threads := s.threads.set j (threadStep call full s.fields pc).2
      } where
  command := by
    have hrefs := threadStep_commandRefs call full s.fields pc
    have hcount := countP_set_add ThreadPc.holdsCommand (threadStep call full s.fields pc).2 hj
    have hcounted : s.fields.commandRefs = s.threads.countP ThreadPc.holdsCommand := h.command
    simp only [State.posting]
    split_ifs at hrefs hcount <;> omega
  callback := by
    have hrefs := threadStep_callbackRefs call full s.fields pc
    have hcount := countP_set_add ThreadPc.holdsCallback (threadStep call full s.fields pc).2 hj
    have hcounted : s.fields.callbackRefs = s.threads.countP ThreadPc.holdsCallback := h.callback
    simp only [State.calling]
    split_ifs at hrefs hcount <;> omega

theorem access_commandRefs {fields : Fields} {rest : List Access} {a : Access}
    : (access hasNmt fields rest a).1.commandRefs
      = if a = .storeCommandRefs then 0 else fields.commandRefs := by
  cases a <;> simp [access]

theorem access_callbackRefs {fields : Fields} {rest : List Access} {a : Access}
    : (access hasNmt fields rest a).1.callbackRefs
      = if a = .storeCallbackRefs then 0 else fields.callbackRefs := by
  cases a <;> simp [access]

/-- A step that makes an access and leaves the threads alone. -/
theorem State.Counted.of_access {a : Access} {rest : List Access} (h : s.Counted) (hclean : s.Clean s')
    (hmakes : a = .storeCommandRefs ∨ a = .storeCallbackRefs → s.Makes s' a)
    (hthreads : s'.threads = s.threads) (hfields : s'.fields = (access hasNmt s.fields rest a).1)
    : s'.Counted where
  command := by
    simp only [State.posting, hthreads, hfields, access_commandRefs]
    split
    next ha =>
      have hzero := hclean.command (ha ▸ hmakes (.inl ha))
      rw [State.posting] at hzero
      simp [hzero]
    next => exact h.command
  callback := by
    simp only [State.calling, hthreads, hfields, access_callbackRefs]
    split
    next ha =>
      have hzero := hclean.callback (ha ▸ hmakes (.inr ha))
      rw [State.calling] at hzero
      simp [hzero]
    next => exact h.callback

theorem State.Counted.step (h : s.Counted) (hstep : Step hasNmt s s') (hclean : s.Clean s')
    : s'.Counted := by
  cases hstep with
  | thread j pc call full hj => exact h.thread hj
  | controlAccess a rest hcontrol =>
    refine h.of_access hclean ?_ rfl rfl
    rintro (rfl | rfl) <;> exact ⟨rfl, .inl hcontrol⟩
  | ownerAccess a rest howner =>
    refine h.of_access hclean ?_ rfl rfl
    rintro (rfl | rfl) <;> exact ⟨rfl, .inr howner⟩
  | control life _ _ => exact ⟨h.command, h.callback⟩
  | owner i life owner _ _ => exact ⟨h.command, h.callback⟩

theorem createdAccesses_self (control : Control) (owner : List Access)
    : createdAccesses control control owner = owner := by
  cases control <;> rfl

/-- A step that makes an access makes its change to the counts and none to the threads. -/
theorem State.Makes.fields {a : Access} (h : s.Makes s' a) (hstep : Step hasNmt s s')
    : s'.threads = s.threads
      ∧ s'.fields.commandRefs = (if a = .storeCommandRefs then 0 else s.fields.commandRefs)
      ∧ s'.fields.callbackRefs
        = (if a = .storeCallbackRefs then 0 else s.fields.callbackRefs) := by
  obtain ⟨hlife, hmakes⟩ := h
  cases hstep with
  | thread j pc call full hj =>
    obtain hmakes | hmakes := hmakes <;> exact absurd hmakes.symm (List.cons_ne_self _ _)
  | controlAccess b rest hcontrol =>
    obtain hmakes | hmakes := hmakes
    . obtain ⟨rfl, _⟩ := List.cons.inj (hmakes.symm.trans hcontrol)
      exact ⟨rfl, access_commandRefs, access_callbackRefs⟩
    . exact absurd hmakes.symm (List.cons_ne_self _ _)
  | ownerAccess b rest howner =>
    obtain hmakes | hmakes := hmakes
    . exact absurd hmakes.symm (List.cons_ne_self _ _)
    . obtain ⟨rfl, _⟩ := List.cons.inj (hmakes.symm.trans howner)
      exact ⟨rfl, access_commandRefs, access_callbackRefs⟩
  | control life hcontrol _ =>
    dsimp only at hlife hmakes
    subst hlife
    rw [createdAccesses_self, hcontrol] at hmakes
    obtain hmakes | hmakes := hmakes
    . cases hmakes
    . exact absurd hmakes.symm (List.cons_ne_self _ _)
  | owner i life owner _ howner =>
    dsimp only at hlife hmakes
    subst hlife
    simp only [ownerAccesses, if_true, Option.some.injEq] at howner
    subst howner
    obtain hmakes | hmakes := hmakes <;> exact absurd hmakes.symm (List.cons_ne_self _ _)

theorem State.Counted.clean (h' : s'.Counted) (hstep : Step hasNmt s s') : s.Clean s' where
  command hmakes := by
    obtain ⟨hthreads, hzero, -⟩ := hmakes.fields hstep
    have hcount := h'.command
    rw [hzero, if_pos rfl, State.posting, hthreads] at hcount
    exact Int.ofNat_eq_zero.mp hcount.symm
  callback hmakes := by
    obtain ⟨hthreads, -, hzero⟩ := hmakes.fields hstep
    have hcount := h'.callback
    rw [hzero, if_pos rfl, State.calling, hthreads] at hcount
    exact Int.ofNat_eq_zero.mp hcount.symm

theorem State.Counted.refsOk (h : s.Counted) : s.RefsOk hasNmt where
  counted := h
  command_nonneg := by simp [h.command]
  callback_nonneg := by simp [h.callback]
  command_wait rest howner hzero := by
    have hstep : Step hasNmt s _ := .ownerAccess _ _ howner
    simpa [access, h.command, hzero] using hstep
  callback_wait rest howner hzero := by
    have hstep : Step hasNmt s _ := .ownerAccess _ _ howner
    simpa [access, h.callback, hzero] using hstep

theorem counted_start : State.Counted { threads := List.replicate n .idle } := by
  constructor <;> simp [State.posting, State.calling, ThreadPc.holdsCommand, ThreadPc.holdsCallback,
    List.countP_replicate]

/-- From a state that counts, the states of a run count exactly if the stores find no reference. -/
theorem counted_iff_clean (hrun : (s :: run).IsChain (Step hasNmt)) (h : s.Counted)
    : (∀ s' ∈ run, s'.Counted) ↔ (s :: run).IsChain State.Clean := by
  induction run generalizing s with
  | nil => simp
  | cons s' run ih =>
    obtain ⟨hstep, hrun⟩ := List.isChain_cons_cons.mp hrun
    rw [List.forall_mem_cons, List.isChain_cons_cons]
    constructor
    . rintro ⟨h', hall⟩
      exact ⟨h'.clean hstep, (ih hrun h').mp hall⟩
    . rintro ⟨hclean, hall⟩
      have h' := h.step hstep hclean
      exact ⟨h', (ih hrun h').mpr hall⟩

/--
In a run the reference counts are right in every state exactly if every store of a zero to
`command_refs` or `callback_refs` finds no thread between the increment and the decrement.
-/
theorem refs_ok_iff_clean (h : Run hasNmt n run)
    : (∀ s ∈ run, s.RefsOk hasNmt) ↔ run.IsChain State.Clean := by
  obtain ⟨hstart, hsteps⟩ := h
  cases run with
  | nil => simp at hstart
  | cons s run =>
    obtain rfl : s = { threads := List.replicate n .idle } := by simpa using hstart
    rw [← counted_iff_clean hsteps counted_start]
    constructor
    . intro hall s' hs'
      exact (hall s' (List.mem_cons_of_mem _ hs')).counted
    . intro hall
      rw [List.forall_mem_cons]
      exact ⟨counted_start.refsOk, fun s' hs' => (hall s' hs').refsOk⟩

end

/-- A thread has looked at the latch when the first start stores its zero. -/
theorem refs_ok_iff_clean_first_start
    : ∃ run, Run true 1 run ∧ run.length = 5 ∧ ∀ s ∈ run, s.RefsOk true := by
  let s₀ : State := { threads := List.replicate 1 .idle }
  let s₁ : State := { threads := [.posting .latched false] }
  let s₂ : State := { s₁ with life := { control := .startClear } }
  let s₃ : State := { s₁ with life := { control := .startReset }, control := commandPrepare }
  let s₄ : State := { s₃ with control := commandPrepare.tail }
  have hrun : Run true 1 [s₀, s₁, s₂, s₃, s₄] := by
    refine ⟨rfl, ?_⟩
    simp only [List.isChain_cons_cons, List.isChain_singleton, and_true]
    exact ⟨.thread 0 .idle .post false rfl, .control _ rfl (.start rfl rfl),
      .control _ rfl (.cleared rfl (by decide)), .controlAccess .storeCommandRefs _ rfl⟩
  refine ⟨_, hrun, rfl, (refs_ok_iff_clean hrun).mpr ?_⟩
  simp only [List.isChain_cons_cons, List.isChain_singleton, and_true]
  exact ⟨⟨fun _ => rfl, fun _ => rfl⟩, ⟨fun _ => rfl, fun _ => rfl⟩, ⟨fun _ => rfl, fun _ => rfl⟩,
    ⟨fun _ => rfl, fun _ => rfl⟩⟩

/--
A thread posts before the first start, when both flags are still zero. The start stores its zero while
the thread holds its reference, and the thread then takes the count below zero.
-/
theorem refs_negative_after_first_start
    : ∃ run, Run true 1 run ∧ ∃ s ∈ run, s.posting = 0 ∧ s.fields.commandRefs = -1
      ∧ ¬s.RefsOk true := by
  have hstart : Relation.ReflTransGen (Step true) { threads := [.idle] } _ := .refl
  have hadd := ((hstart.tail (.thread 0 .idle .post false rfl)).tail
    (.thread 0 (.posting .latched false) .post false rfl)).tail
    (.thread 0 (.posting .quiescing false) .post false rfl)
  have hheld := ((hadd.tail (.thread 0 (.posting .add false) .post false rfl)).tail
    (.thread 0 (.posting .latchedAgain false) .post false rfl)).tail
    (.thread 0 (.posting .quiescingAgain false) .post false rfl)
  have hstored := ((hheld.tail (.control _ rfl (.start rfl rfl))).tail
    (.control _ rfl (.cleared rfl (by decide)))).tail (.controlAccess .storeCommandRefs _ rfl)
  have hreleased := (hstored.tail (.thread 0 (.posting .queue false) .post false rfl)).tail
    (.thread 0 (.posting (.release .busy) false) .post false rfl)
  obtain ⟨run, hrun, hlast⟩ := List.exists_isChain_cons_of_relationReflTransGen hreleased
  refine ⟨_, ⟨rfl, hrun⟩, _, hlast ▸ List.getLast_mem _, rfl, rfl, ?_⟩
  intro hok
  exact absurd hok.command_nonneg (by decide)

end LelyRtt.Lifecycle.Refs
