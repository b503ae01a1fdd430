import LelyRtt.Conc.Given
import LelyRtt.Protocol.Posted
import LelyRtt.Protocol.Start

/-!
This module contains what the owner's code does to the Client-SDOs: when the code comes back between
two of its operations, each one fits what the owner has noted about the transfers and the receivers.
It rests on the invariant of a run and is proved for the code once more.
-/

namespace LelyRtt

open Conc

variable {ι κ : Type} [DecidableEq ι] [DecidableEq κ]

/-- The predefined Client-SDO of the node does not receive. -/
def Own.ClientOff (own : Own ι κ) (node : Nat) : Prop :=
  own.csdo (.predefined node) = none ∨ own.csdo (.predefined node) = some .stopped

/-- The Client-SDO of a node fits what the owner has noted about the node. -/
structure Own.NodeOk (own : Own ι κ) (node : Nat) : Prop where
  active : ∀ r, own.sdoActive node = some r →
    own.csdo (own.misc.chan node) = some (.busy r) ∧ own.misc.sdoStopPending node = false
  pending : own.misc.sdoStopPending node = true →
    sdoUsesPredefined own.misc node ∧ own.csdo (.predefined node) = some .idle
  quiet : sdoUsesPredefined own.misc node → own.sdoActive node = none →
    own.misc.sdoStopPending node = false → own.ClientOff node
  own : own.csdo (.predefined node) ≠ some .foreign

def Own.Settled (own : Own ι κ) : Prop :=
  ∀ node, own.NodeOk node

/-- No receiver waits to be stopped. -/
def Own.Reaped (own : Own ι κ) (node : Nat) : Prop :=
  own.sdoActive node ≠ none ∨ own.misc.sdoStopPending node = false

/-- What the owner does at the moment. -/
structure Mode (ι : Type) where
  -- what Lely runs
  work : LelyWork
  -- the owner has just been between two of its operations
  rest : Bool
  -- a request that was posted, and its node
  known : Option (ι × Nat)

/-- NMT creates, destroys or uses the custom Client-SDO. -/
def LelyWork.manages (number : Nat) : LelyWork → Prop
  | .customDestroy number' | .customCreate number' | .customBegin number' | .customEnd number' =>
    number' = number
  | _ => False

/-- What the owner may do to a custom Client-SDO: start and end its own transfer on it. -/
def Own.MaySet (own : Own ι κ) (chan : Chan) (csdo : Option (Csdo ι)) : Prop :=
  ∃ r, own.csdo chan = some (.busy r) ∧ csdo = some .idle
    ∨ own.csdo chan = some .idle ∧ csdo = some (.busy r)

/-- What holds when the owner runs an operation. -/
def Op.Guarded (own : Own ι κ) (m : Mode ι) : Op ι κ → Prop
  | .between => own.Settled
  | .receive => own.Settled ∧ ∀ node, node ≠ 0 → node ≤ numNodes → own.Reaped node
  | .mqReceive _ => m.rest = true
  | .setCsdo (.custom number) csdo => m.work.manages number ∨ own.MaySet (.custom number) csdo
  | .casState _ _ desired => desired ≠ .new
  | _ => True

/-- What Lely runs after an operation of the owner. -/
def LelyWork.after (work : LelyWork) (o : Op ι κ) (b : o.Res) : LelyWork :=
  match o, b with
  | .work, work' => work'
  | .between, _ => .none
  | _, _ => work

/-- How an operation changes what the owner does at the moment. -/
structure Mode.Next (sh : Shared ι κ) (o : Op ι κ) (b : o.Res) (m m' : Mode ι) : Prop where
  work : m'.work = m.work.after o b
  rest : m'.rest = true → o = .between
  known : m'.known = m.known
    ∨ ∃ r, sh.Posted r ∧ m'.known = some (r, (sh.heap r).nodeId)

/-- The request in the mode was posted for its node. -/
def Mode.Known (sh : Shared ι κ) (m : Mode ι) : Prop :=
  ∀ r node, m.known = some (r, node) → sh.Posted r ∧ (sh.heap r).nodeId = node

section

variable [Fintype ι] [Fintype κ]

/-- The invariant of a run holds. -/
def Sound (cfg : BuildConfig) (own : Own ι κ) (sh : Shared ι κ) : Prop :=
  ∃ v, Inv cfg .none own sh v

/-- The owner beside the application threads, in sound states. -/
abbrev sound (ι κ : Type) [DecidableEq ι] [DecidableEq κ] [Fintype ι] [Fintype κ]
    (cfg : BuildConfig) : Machine (@Op.Res ι κ) (Own ι κ) (Shared ι κ) :=
  (restricted ι κ cfg .none).given (Sound cfg)

/-- The program logic for the Client-SDOs. -/
def clients (ι κ : Type) [DecidableEq ι] [DecidableEq κ] [Fintype ι] [Fintype κ]
    (cfg : BuildConfig) : Logic (sound ι κ cfg) (Mode ι) where
  inv _ sh m := m.Known sh
  ghost o own sh b m m' := o.Guarded own m ∧ m.Next sh o b m'
  inv_env := by
    intro own sh sh' m hknown henv r node hr
    obtain ⟨hposted, hnode⟩ := hknown r node hr
    obtain ⟨v, hinv⟩ := henv.2
    obtain ⟨hposted, hsame, _⟩ := hinv.env_posted henv.1.1 r hposted
    exact ⟨hposted, hsame.trans hnode⟩
  inv_exec := by
    intro o own sh b own' sh' m m' hknown hexec hghost r node hr
    obtain ⟨⟨⟨input, hrun⟩, _⟩, _⟩ := hexec
    have hnew (r : ι) (expected : ReqState) : o ≠ .casState r expected .new := by
      rintro rfl
      exact hghost.1 rfl
    have hposted : sh.Posted r ∧ (sh.heap r).nodeId = node := by
      obtain heq | ⟨r', hposted, heq⟩ := hghost.2.known
      . exact hknown r node (heq ▸ hr)
      . rw [heq, Option.some_inj, Prod.mk.injEq] at hr
        obtain ⟨rfl, rfl⟩ := hr
        exact ⟨hposted, rfl⟩
    obtain ⟨hposted', hsame, _⟩ := run_posted hrun hnew r hposted.1
    exact ⟨hposted', hsame.trans hposted.2⟩

/-- Code of the owner keeps the Client-SDOs in order and ends in states that satisfy `Q`. -/
def Keeps (cfg : BuildConfig) {α : Type} (p : Owner ι κ α) (own : Own ι κ) (m : Mode ι)
    (Q : α → Own ι κ → Mode ι → Prop) : Prop :=
  (clients ι κ cfg).wp p Q own m

end

/-- The owner still does the same. -/
structure Mode.Same (m m' : Mode ι) : Prop where
  work : m'.work = m.work
  known : m'.known = m.known

/-- The owner has run an operation. -/
def Mode.busy (m : Mode ι) : Mode ι :=
  { m with rest := false }

namespace Mode.Same

variable {m m' m'' : Mode ι}

omit [DecidableEq ι]

theorem refl : m.Same m := ⟨rfl, rfl⟩

theorem busy : m.Same m.busy := ⟨rfl, rfl⟩

theorem trans (h : m.Same m') (h' : m'.Same m'') : m.Same m'' :=
  ⟨h'.work.trans h.work, h'.known.trans h.known⟩

end Mode.Same

/-- Nothing changed that the Client-SDOs have to do with. -/
structure Own.SameClients (own own' : Own ι κ) : Prop where
  active : own'.sdoActive = own.sdoActive
  csdo : own'.csdo = own.csdo
  channel : own'.misc.sdoChannel = own.misc.sdoChannel
  stop : own'.misc.sdoStopPending = own.misc.sdoStopPending

/-- The operation leaves everything alone that the Client-SDOs have to do with. -/
def Op.Still : Op ι κ → Prop
  | .setActive _ _ | .setCsdo _ _ | .work | .between | .receive | .mqReceive _ => False
  | .casState _ _ desired => desired ≠ .new
  | .setMisc f => ∀ misc, (f misc).sdoChannel = misc.sdoChannel
    ∧ (f misc).sdoStopPending = misc.sdoStopPending
  | _ => True

/-- Operations whose answer says nothing about what the owner does. -/
def Op.plain : Op ι κ → Bool
  | .work | .between => false
  | _ => true

omit [DecidableEq ι] [DecidableEq κ] in
theorem Mode.Next.busy {sh : Shared ι κ} {o : Op ι κ} {b : o.Res} {m : Mode ι} (h : o.plain)
    : m.Next sh o b m.busy where
  work := by cases o <;> first | rfl | cases h
  rest := by simp [Mode.busy]
  known := .inl rfl

omit [DecidableEq κ] in
theorem Own.SameClients.run {o : Op ι κ} {input : Input} {own own' : Own ι κ} {sh sh' : Shared ι κ}
    {b : o.Res} (h : o.Still) (hrun : o.run input own sh = (b, own', sh')) : own.SameClients own' := by
  cases o with
  | setMisc f =>
    cases hrun
    exact ⟨rfl, rfl, (h _).1, (h _).2⟩
  | setActive | setCsdo | work | between | receive | mqReceive => cases h
  | casState r expected desired =>
    cases b with
    | none =>
      obtain ⟨_, rfl, _⟩ := run_casState_none hrun
      split <;> exact ⟨rfl, rfl, rfl, rfl⟩
    | some st =>
      obtain ⟨_, _, rfl, _⟩ := run_casState_some hrun
      split <;> exact ⟨rfl, rfl, rfl, rfl⟩
  | _ =>
    cases hrun
    exact ⟨rfl, rfl, rfl, rfl⟩

namespace Own.SameClients

variable {own own' own'' : Own ι κ}

omit [DecidableEq ι] [DecidableEq κ]

theorem refl : own.SameClients own := ⟨rfl, rfl, rfl, rfl⟩

theorem trans (h : own.SameClients own') (h' : own'.SameClients own'') : own.SameClients own'' where
  active := h'.active.trans h.active
  csdo := h'.csdo.trans h.csdo
  channel := h'.channel.trans h.channel
  stop := h'.stop.trans h.stop

theorem chan (h : own.SameClients own') (node : Nat) : own'.misc.chan node = own.misc.chan node := by
  simp [Misc.chan, h.channel]

theorem predefined (h : own.SameClients own') (node : Nat)
    : sdoUsesPredefined own'.misc node = sdoUsesPredefined own.misc node := by
  simp [sdoUsesPredefined, h.channel]

theorem nodeOk (h : own.SameClients own') {node : Nat} (hok : own.NodeOk node)
    : own'.NodeOk node where
  active := by
    rw [h.active, h.csdo, h.chan, h.stop]
    exact hok.active
  pending := by
    rw [h.csdo, h.predefined, h.stop]
    exact hok.pending
  quiet := by
    rw [h.active, h.predefined, h.stop, Own.ClientOff, h.csdo]
    exact hok.quiet
  own := by
    rw [h.csdo]
    exact hok.own

theorem settled (h : own.SameClients own') (hset : own.Settled) : own'.Settled :=
  fun node => h.nodeOk (hset node)

end Own.SameClients

namespace Keeps

variable [Fintype ι] [Fintype κ] {cfg : BuildConfig} {own : Own ι κ} {m : Mode ι} {α β σ : Type}

theorem ret {a : α} {Q : α → Own ι κ → Mode ι → Prop} (h : Q a own m)
    : Keeps cfg (pure a) own m Q := by
  simpa [Keeps] using h

theorem bind {p : Owner ι κ α} {f : α → Owner ι κ β} {Q : β → Own ι κ → Mode ι → Prop}
    (h : Keeps cfg p own m fun a own m => Keeps cfg (f a) own m Q)
    : Keeps cfg (p >>= f) own m Q :=
  Logic.wp_bind _ p f own m h

theorem mono {p : Owner ι κ α} {Q Q' : α → Own ι κ → Mode ι → Prop}
    (h : Keeps cfg p own m Q) (hQ : ∀ a own m, Q a own m → Q' a own m)
    : Keeps cfg p own m Q' :=
  Logic.wp_mono _ p hQ own m h

theorem ite {c : Prop} [Decidable c] {p q : Owner ι κ α} {Q : α → Own ι κ → Mode ι → Prop}
    (hp : c → Keeps cfg p own m Q) (hq : ¬c → Keeps cfg q own m Q)
    : Keeps cfg (if c then p else q) own m Q := by
  split
  next h => exact hp h
  next h => exact hq h

/-- A call whose result is used, from the specification of the callee. -/
theorem call {p : Owner ι κ α} {f : α → Owner ι κ β} {P : α → Own ι κ → Mode ι → Prop}
    {Q : β → Own ι κ → Mode ι → Prop} (h : Keeps cfg p own m P)
    (hf : ∀ a own m, P a own m → Keeps cfg (f a) own m Q)
    : Keeps cfg (p >>= f) own m Q :=
  bind (h.mono hf)

theorem loop {s : σ} {body : σ → Owner ι κ (σ ⊕ β)} {Q : β → Own ι κ → Mode ι → Prop}
    (J : σ → Own ι κ → Mode ι → Prop) (hJ : J s own m)
    (hbody : ∀ s own m, J s own m → Keeps cfg (body s) own m fun
      | .inl s => J s
      | .inr b => Q b)
    : Keeps cfg (Prog.loop s body) own m Q :=
  Logic.wp_loop _ J hJ hbody

theorem forEach {body : σ → Owner ι κ Unit} {xs : List σ} {Q : Unit → Own ι κ → Mode ι → Prop}
    (J : List σ → Own ι κ → Mode ι → Prop) (hJ : J xs own m)
    (hdone : ∀ own m, J [] own m → Q () own m)
    (hbody : ∀ x xs own m, J (x :: xs) own m →
      Keeps cfg (body x) own m fun _ own m => J xs own m)
    : Keeps cfg (Prog.forEach body xs) own m Q :=
  Logic.wp_forEach _ J hdone hbody xs own m hJ

/-- One operation, and what it says about what the owner does. -/
theorem exec {o : Op ι κ} {Q : o.Res → Own ι κ → Mode ι → Prop} (hguard : o.Guarded own m)
    (h : ∀ sh input b own' sh', Sound cfg own sh → m.Known sh →
      o.run input own sh = (b, own', sh') → ∃ m', m.Next sh o b m' ∧ Q b own' m')
    : Keeps cfg (exec o) own m Q := by
  unfold Keeps LelyRtt.exec
  rw [Logic.wp_op]
  intro sh hknown b own' sh' hexec
  obtain ⟨⟨⟨input, hrun⟩, _⟩, hsound⟩ := hexec
  obtain ⟨m', hnext, hQ⟩ := h sh input b own' sh' hsound hknown hrun
  exact ⟨m', ⟨hguard, hnext⟩, by simpa using hQ⟩

/-- An operation whose answer does not matter for what the owner does. -/
theorem op {o : Op ι κ} {Q : o.Res → Own ι κ → Mode ι → Prop} (hplain : o.plain)
    (hguard : o.Guarded own m)
    (h : ∀ sh input b own' sh', Sound cfg own sh → m.Known sh →
      o.run input own sh = (b, own', sh') → Q b own' m.busy)
    : Keeps cfg (LelyRtt.exec o) own m Q := by
  apply exec hguard
  intro sh input b own' sh' hsound hknown hrun
  exact ⟨m.busy, .busy hplain, h sh input b own' sh' hsound hknown hrun⟩

/-- An operation that is always the same change of what the owner owns. -/
theorem step {o : Op ι κ} {own' : Own ι κ} {Q : o.Res → Own ι κ → Mode ι → Prop} (hplain : o.plain)
    (hguard : o.Guarded own m) (hown : ∀ input sh, (o.run input own sh).2.1 = own')
    (h : ∀ b, Q b own' m.busy) : Keeps cfg (LelyRtt.exec o) own m Q := by
  apply op hplain hguard
  intro sh input b own'' sh' _ _ hrun
  have heq := hown input sh
  rw [hrun] at heq
  subst heq
  exact h b

theorem readOwn {Q : Own ι κ → Own ι κ → Mode ι → Prop}
    (h : ∀ sh, Sound cfg own sh → Q own own m.busy)
    : Keeps cfg (LelyRtt.exec (.own : Op ι κ)) own m Q := by
  refine op rfl (by trivial) ?_
  intro sh input b own' sh' hsound _ hrun
  cases hrun
  exact h sh hsound

theorem read {r : ι} {Q : Request ι → Own ι κ → Mode ι → Prop}
    (h : ∀ sh, Sound cfg own sh → m.Known sh → Q (sh.heap r) own m.busy)
    : Keeps cfg (LelyRtt.exec (.read r : Op ι κ)) own m Q := by
  refine op rfl (by trivial) ?_
  intro sh input b own' sh' hsound hknown hrun
  cases hrun
  exact h sh hsound hknown

theorem pick {Q : Bool → Own ι κ → Mode ι → Prop} (h : ∀ b, Q b own m.busy)
    : Keeps cfg (LelyRtt.exec (.pick : Op ι κ)) own m Q := by
  refine op rfl (by trivial) ?_
  intro sh input b own' sh' _ _ hrun
  cases hrun
  exact h _

/-- Code that leaves the Client-SDOs alone. -/
theorem still {p : Owner ι κ α} {Q : α → Own ι κ → Mode ι → Prop} (hp : p.All Op.Still)
    (h : ∀ a own' m', own.SameClients own' → m.Same m' → Q a own' m') : Keeps cfg p own m Q := by
  have hop (o : Op ι κ) (own : Own ι κ) (sh : Shared ι κ) (b : o.Res) (own' : Own ι κ)
      (sh' : Shared ι κ) (m : Mode ι) (ho : o.Still) (hexec : (sound ι κ cfg).exec o own sh b own' sh')
      : ∃ m', (o.Guarded own m ∧ m.Next sh o b m') ∧ own.SameClients own' ∧ m.Same m' := by
    obtain ⟨⟨⟨input, hrun⟩, _⟩, _⟩ := hexec
    refine ⟨m.busy, ⟨?_, .busy ?_⟩, .run ho hrun, .busy⟩
    . cases o <;> trivial
    . cases o <;> first | rfl | cases ho
  have hall := Logic.wp_all (L := clients ι κ cfg)
    (R := fun own m own' m' => own.SameClients own' ∧ m.Same m')
    (fun _ _ => ⟨.refl, .refl⟩) (fun h h' => ⟨h.1.trans h'.1, h.2.trans h'.2⟩) hop hp own m
  exact mono hall fun a own' m' hsame => h a own' m' hsame.1 hsame.2

end Keeps

end LelyRtt
