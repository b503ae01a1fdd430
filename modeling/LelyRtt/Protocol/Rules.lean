import LelyRtt.Protocol.Inv

/-!
This module contains the rules of the program logic for the operations of the owner.
-/

namespace LelyRtt

open Conc

variable {ι κ : Type} [DecidableEq ι] [DecidableEq κ] [Fintype ι] [Fintype κ]

/-- Code of the owner keeps the invariant and ends in states that satisfy `Q`. -/
def Ensures (cfg : BuildConfig) (lim : Limits) {α : Type} (p : Owner ι κ α) (own : Own ι κ)
    (v : View ι) (Q : α → Own ι κ → View ι → Prop) : Prop :=
  (logic ι κ cfg lim).wp p Q own v

namespace Ensures

variable {cfg : BuildConfig} {lim : Limits} {own : Own ι κ} {v : View ι} {α β σ : Type}

theorem ret {a : α} {Q : α → Own ι κ → View ι → Prop} (h : Q a own v)
    : Ensures cfg lim (pure a) own v Q := by
  simpa [Ensures] using h

theorem bind {p : Owner ι κ α} {f : α → Owner ι κ β} {Q : β → Own ι κ → View ι → Prop}
    (h : Ensures cfg lim p own v fun a own v => Ensures cfg lim (f a) own v Q)
    : Ensures cfg lim (p >>= f) own v Q :=
  Logic.wp_bind _ p f own v h

theorem mono {p : Owner ι κ α} {Q Q' : α → Own ι κ → View ι → Prop}
    (h : Ensures cfg lim p own v Q) (hQ : ∀ a own v, Q a own v → Q' a own v)
    : Ensures cfg lim p own v Q' :=
  Logic.wp_mono _ p hQ own v h

/-- A call whose result is used, from the specification of the callee. -/
theorem call {p : Owner ι κ α} {f : α → Owner ι κ β} {P : α → Own ι κ → View ι → Prop}
    {Q : β → Own ι κ → View ι → Prop} (h : Ensures cfg lim p own v P)
    (hf : ∀ a own v, P a own v → Ensures cfg lim (f a) own v Q)
    : Ensures cfg lim (p >>= f) own v Q :=
  bind (h.mono hf)

theorem ite {c : Prop} [Decidable c] {p q : Owner ι κ α} {Q : α → Own ι κ → View ι → Prop}
    (ht : c → Ensures cfg lim p own v Q) (hf : ¬c → Ensures cfg lim q own v Q)
    : Ensures cfg lim (if c then p else q) own v Q := by
  split
  next h => exact ht h
  next h => exact hf h

theorem loop {s : σ} {body : σ → Owner ι κ (σ ⊕ β)} {Q : β → Own ι κ → View ι → Prop}
    (J : σ → Own ι κ → View ι → Prop) (hJ : J s own v)
    (hbody : ∀ s own v, J s own v → Ensures cfg lim (body s) own v fun
      | .inl s => J s
      | .inr b => Q b)
    : Ensures cfg lim (Prog.loop s body) own v Q :=
  Logic.wp_loop _ J hJ hbody

theorem forEach {body : σ → Owner ι κ Unit} {xs : List σ} {Q : Unit → Own ι κ → View ι → Prop}
    (J : List σ → Own ι κ → View ι → Prop) (hJ : J xs own v)
    (hdone : ∀ own v, J [] own v → Q () own v)
    (hbody : ∀ x xs own v, J (x :: xs) own v →
      Ensures cfg lim (body x) own v fun _ own v => J xs own v)
    : Ensures cfg lim (Prog.forEach body xs) own v Q :=
  Logic.wp_forEach _ J hdone hbody xs own v hJ

/-- One operation: a move of the view for everything that it may answer. -/
theorem exec {o : Op ι κ} {Q : o.Res → Own ι κ → View ι → Prop}
    (h : ∀ sh input b own' sh', Inv cfg lim own sh v → o.run input own sh = (b, own', sh') →
      o.permits lim own b → ∃ v', Ghost cfg lim o own sh b v v' ∧ Q b own' v')
    : Ensures cfg lim (exec o) own v Q := by
  unfold Ensures LelyRtt.exec
  rw [Logic.wp_op]
  intro sh hinv b own' sh' hexec
  obtain ⟨⟨input, hrun⟩, hpermits⟩ := hexec
  obtain ⟨v', hghost, hQ⟩ := h sh input b own' sh' hinv hrun hpermits
  exact ⟨v', hghost, by simpa using hQ⟩

/-- An operation whose answer does not matter and which is always the same move. -/
theorem step {o : Op ι κ} {v' : View ι} {own' : Own ι κ} {Q : o.Res → Own ι κ → View ι → Prop}
    (hown : ∀ input sh, (o.run input own sh).2.1 = own')
    (hghost : ∀ sh b, Inv cfg lim own sh v → Ghost cfg lim o own sh b v v')
    (hQ : ∀ b, Q b own' v') : Ensures cfg lim (LelyRtt.exec o) own v Q := by
  apply exec
  intro sh input b own'' sh' hinv hrun _
  refine ⟨v', hghost sh b hinv, ?_⟩
  have heq := hown input sh
  rw [hrun] at heq
  subst heq
  exact hQ b

theorem readOwn {Q : Own ι κ → Own ι κ → View ι → Prop}
    (h : ∀ sh, Inv cfg lim own sh v → Q own own v)
    : Ensures cfg lim (LelyRtt.exec (.own : Op ι κ)) own v Q := by
  apply exec
  intro sh input b own' sh' hinv hrun _
  cases hrun
  exact ⟨v, .look trivial, h sh hinv⟩

theorem read {r : ι} {Q : Request ι → Own ι κ → View ι → Prop} (hheld : v.place r ≠ .away)
    (h : ∀ sh, Inv cfg lim own sh v → Q (sh.heap r) own v)
    : Ensures cfg lim (LelyRtt.exec (.read r : Op ι κ)) own v Q := by
  apply exec
  intro sh input b own' sh' hinv hrun _
  cases hrun
  exact ⟨v, .look hheld, h sh hinv⟩

theorem loadState {r : ι} {Q : ReqState → Own ι κ → View ι → Prop} (hheld : v.place r ≠ .away)
    (h : ∀ sh, Inv cfg lim own sh v → Q (sh.heap r).state own v)
    : Ensures cfg lim (LelyRtt.exec (.loadState r : Op ι κ)) own v Q := by
  apply exec
  intro sh input b own' sh' hinv hrun _
  cases hrun
  exact ⟨v, .look hheld, h sh hinv⟩

theorem pick {Q : Bool → Own ι κ → View ι → Prop} (h : ∀ b, Q b own v)
    : Ensures cfg lim (LelyRtt.exec (.pick : Op ι κ)) own v Q := by
  apply exec
  intro sh input b own' sh' _ hrun _
  cases hrun
  exact ⟨v, .look trivial, h _⟩

/-- A compare-exchange that hands over no pin. -/
theorem cas {r : ι} {expected desired : ReqState} {Q : Option ReqState → Own ι κ → View ι → Prop}
    (hdesired : desired.staged = false)
    (hnone : ∀ sh, Inv cfg lim own sh v → (sh.heap r).state = expected → ∃ v',
      Ghost cfg lim (.casState r expected desired) own sh (none : Option ReqState) v v'
        ∧ Q none own v')
    (hsome : ∀ sh, Inv cfg lim own sh v → (sh.heap r).state ≠ expected → ∃ v',
      Ghost cfg lim (.casState r expected desired) own sh
        (some (sh.heap r).state : Option ReqState) v v' ∧ Q (some (sh.heap r).state) own v')
    : Ensures cfg lim (LelyRtt.exec (.casState r expected desired : Op ι κ)) own v Q := by
  apply exec
  intro sh input b own' sh' hinv hrun _
  cases b with
  | none =>
    obtain ⟨hst, rfl, _⟩ := run_casState_none hrun
    rw [hdesired]
    exact hnone sh hinv hst
  | some st =>
    obtain ⟨hne, rfl, rfl, _⟩ := run_casState_some hrun
    rw [hdesired]
    exact hsome sh hinv hne

/-- A compare-exchange that hands over a pin on the runtime. -/
theorem casStaged {r : ι} {expected desired : ReqState} {pin : PinKind} {kind : Ending}
    {Q : Option ReqState → Own ι κ → View ι → Prop} (hexpected : expected = pin.pinned)
    (hdesired : desired = pin.staged)
    (hplace : v.place r = .ending kind true false) (hpin : own.pinStage = .beforeCas)
    (hnone : Q none { own with pinStage := .none } (v.put r .away))
    (hsome : ∀ sh, Inv cfg lim own sh v →
      Q (some (sh.heap r).state) { own with pinStage := .afterFailedCas } v)
    : Ensures cfg lim (LelyRtt.exec (.casState r expected desired : Op ι κ)) own v Q := by
  subst hexpected hdesired
  apply exec
  intro sh input b own' sh' hinv hrun _
  cases b with
  | none =>
    obtain ⟨_, rfl, _⟩ := run_casState_none hrun
    rw [if_pos pin.staged_staged]
    exact ⟨_, .stage pin hplace hpin, hnone⟩
  | some st =>
    obtain ⟨_, rfl, rfl, _⟩ := run_casState_some hrun
    rw [if_pos pin.staged_staged]
    exact ⟨_, .stageFailed pin hplace hpin, hsome sh hinv⟩

theorem pinRuntime {r : ι} {kind : Ending} {Q : Unit → Own ι κ → View ι → Prop}
    (hplace : v.place r = .ending kind true false) (hpin : own.pinStage = .none)
    (h : Q () { own with pinStage := .beforeCas } v)
    : Ensures cfg lim (LelyRtt.exec (.addCancelRefs 1 : Op ι κ)) own v Q :=
  step (fun _ _ => rfl) (fun _ _ _ => .pin hplace hpin) (fun _ => h)

theorem unpinRuntime {Q : Unit → Own ι κ → View ι → Prop} (hpin : own.pinStage = .afterFailedCas)
    (h : Q () { own with pinStage := .none } v)
    : Ensures cfg lim (LelyRtt.exec (.addCancelRefs (-1) : Op ι κ)) own v Q :=
  step (fun _ _ => rfl) (fun _ _ _ => .unpin hpin) (fun _ => h)

theorem setBusy {r : ι} {node : Nat} {chan : Chan} {Q : Unit → Own ι κ → View ι → Prop}
    (hplace : v.place r = .active node) (hchan : chan = own.misc.chan node)
    (hmaster : own.misc.masterNmt = true) (hcan : own.misc.canNet = true)
    (h : Q () { own with csdo := Function.update own.csdo chan (some (.busy r)) } v)
    : Ensures cfg lim (LelyRtt.exec (.setCsdo chan (some (.busy r)) : Op ι κ)) own v Q := by
  subst hchan
  exact step (fun _ _ => rfl) (fun _ _ _ => .setBusy hplace hmaster hcan) (fun _ => h)

end Ensures

end LelyRtt
