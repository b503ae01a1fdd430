import LelyRtt.Conc.Prog

/-!
This module contains a program logic for `Prog`. The program carries a ghost value, its view. An
invariant ties the view to the owned and the shared state, and `ghost` says how an operation may
change the view. Between two operations the environment may change the shared state at will as long
as it keeps the invariant, so what a program knows about the shared state is what the invariant says
about its view.
-/

namespace Conc

variable {Op : Type} {Res : Op → Type} {Own Sh View : Type}

/-- An invariant over the state and the view, and the view changes that operations may make. -/
structure Logic (M : Machine Res Own Sh) (View : Type) where
  inv : Own → Sh → View → Prop
  ghost : (o : Op) → Own → Sh → Res o → View → View → Prop
  inv_env : ∀ {own sh sh' v}, inv own sh v → M.env own sh sh' → inv own sh' v
  inv_exec : ∀ {o own sh b own' sh' v v'}, inv own sh v → M.exec o own sh b own' sh' →
    ghost o own sh b v v' → inv own' sh' v'

namespace Logic

variable {M : Machine Res Own Sh} (L : Logic M View) {α β σ : Type}

/--
The weakest precondition of a program: every operation it runs has a view change that `ghost`
permits, and `Q` holds where it returns. A loop needs an invariant of its own.
-/
def wp {α : Type} (p : Prog Res α) (Q : α → Own → View → Prop) : Own → View → Prop :=
  match p with
  | .ret a => Q a
  | .op o k => fun own v =>
    ∀ sh, L.inv own sh v → ∀ b own' sh', M.exec o own sh b own' sh' →
      ∃ v', L.ghost o own sh b v v' ∧ wp (k b) Q own' v'
  | .iter body s k => fun own v =>
    ∃ J : _ → Own → View → Prop, J s own v ∧ ∀ s own v, J s own v →
      wp (body s) (fun
        | .inl s => J s
        | .inr b => wp (k b) Q) own v

@[simp]
theorem wp_ret (a : α) (Q : α → Own → View → Prop) : L.wp (.ret a) Q = Q a := by
  simp only [wp]

@[simp]
theorem wp_pure (a : α) (Q : α → Own → View → Prop) : L.wp (pure a) Q = Q a := by
  simp only [pure, wp_ret]

theorem wp_op (o : Op) (k : Res o → Prog Res α) (Q : α → Own → View → Prop)
    : L.wp (.op o k) Q = fun own v =>
        ∀ sh, L.inv own sh v → ∀ b own' sh', M.exec o own sh b own' sh' →
          ∃ v', L.ghost o own sh b v v' ∧ L.wp (k b) Q own' v' := by
  simp only [wp]

theorem wp_mono (p : Prog Res α) {Q Q' : α → Own → View → Prop}
    (h : ∀ a own v, Q a own v → Q' a own v)
    : ∀ own v, L.wp p Q own v → L.wp p Q' own v := by
  induction p with
  | ret a => simpa using h a
  | op o k ih =>
    intro own v hp
    simp only [wp] at *
    intro sh hinv b own' sh' hexec
    obtain ⟨v', hghost, hk⟩ := hp sh hinv b own' sh' hexec
    exact ⟨v', hghost, ih b h own' v' hk⟩
  | iter body s k ihbody ihk =>
    intro own v hp
    simp only [wp] at *
    obtain ⟨J, hJ, hbody⟩ := hp
    refine ⟨J, hJ, ?_⟩
    intro s own v hs
    apply ihbody s _ own v (hbody s own v hs)
    intro x own v hx
    cases x with
    | inl s => exact hx
    | inr b => exact ihk b h own v hx

theorem wp_bind (p : Prog Res α) (f : α → Prog Res β) {Q : β → Own → View → Prop}
    : ∀ own v, L.wp p (fun a => L.wp (f a) Q) own v → L.wp (p.bind f) Q own v := by
  induction p with
  | ret a =>
    intro own v hp
    simpa [Prog.bind] using hp
  | op o k ih =>
    intro own v hp
    simp only [Prog.bind, wp] at *
    intro sh hinv b own' sh' hexec
    obtain ⟨v', hghost, hk⟩ := hp sh hinv b own' sh' hexec
    exact ⟨v', hghost, ih b f own' v' hk⟩
  | iter body s k ihbody ihk =>
    intro own v hp
    simp only [Prog.bind, wp] at *
    obtain ⟨J, hJ, hbody⟩ := hp
    refine ⟨J, hJ, ?_⟩
    intro s own v hs
    apply L.wp_mono (body s) _ own v (hbody s own v hs)
    intro x own v hx
    cases x with
    | inl s => exact hx
    | inr b => exact ihk b f own v hx

theorem wp_loop {s : σ} {body : σ → Prog Res (σ ⊕ β)} {Q : β → Own → View → Prop} {own v}
    (J : σ → Own → View → Prop) (hJ : J s own v)
    (hbody : ∀ s own v, J s own v → L.wp (body s) (fun
        | .inl s => J s
        | .inr b => Q b) own v)
    : L.wp (.loop s body) Q own v := by
  simp only [Prog.loop, wp]
  exact ⟨J, hJ, hbody⟩

/-- A call, from the specification of the callee. -/
theorem wp_call {p : Prog Res α} {f : α → Prog Res β} {P : α → Own → View → Prop}
    {Q : β → Own → View → Prop} {own v} (h : L.wp p P own v)
    (hf : ∀ a own v, P a own v → L.wp (f a) Q own v) : L.wp (p >>= f) Q own v :=
  L.wp_bind p f own v (L.wp_mono p hf own v h)

theorem wp_forEach {body : σ → Prog Res Unit} {Q : Unit → Own → View → Prop}
    (J : List σ → Own → View → Prop) (hdone : ∀ own v, J [] own v → Q () own v)
    (hbody : ∀ x xs own v, J (x :: xs) own v → L.wp (body x) (fun _ => J xs) own v)
    : ∀ (xs : List σ) own v, J xs own v → L.wp (.forEach body xs) Q own v := by
  intro xs
  induction xs with
  | nil => simpa [Prog.forEach] using hdone
  | cons x xs ih =>
    intro own v hx
    simp only [Prog.forEach]
    apply wp_bind
    apply L.wp_mono _ _ own v (hbody x xs own v hx)
    intro _ own v hxs
    exact ih own v hxs

theorem wp_turn {body : σ → Prog Res (σ ⊕ β)} {s : σ} {k : β → Prog Res α}
    {Q : α → Own → View → Prop} {own v} (h : L.wp (.iter body s k) Q own v)
    : L.wp (.turn body s k) Q own v := by
  simp only [wp] at h
  obtain ⟨J, hJ, hbody⟩ := h
  apply wp_bind
  apply L.wp_mono _ _ own v (hbody s own v hJ)
  intro x own v hx
  cases x with
  | inl s =>
    simp only [wp]
    exact ⟨J, hx, hbody⟩
  | inr b => exact hx

/-- The invariant and the rest of the program agree on the view. -/
def GoodAt (c : Config Res Own Sh) (v : View) : Prop :=
  L.inv c.own c.sh v ∧ L.wp c.prog (fun _ _ _ => True) c.own v

/-- What the logic says about a configuration: there is a view that fits. -/
def Good (c : Config Res Own Sh) : Prop := ∃ v, L.GoodAt c v

variable {L}

/-- An operation that a good configuration runs changes the view as `ghost` permits. -/
theorem GoodAt.ghost {o : Op} {k : Res o → Prog Res Unit} {own sh b own' sh'} {v : View}
    (h : L.GoodAt ⟨.op o k, own, sh⟩ v) (hexec : M.exec o own sh b own' sh')
    : ∃ v', L.ghost o own sh b v v' ∧ L.GoodAt ⟨k b, own', sh'⟩ v' := by
  obtain ⟨hinv, hwp⟩ := h
  simp only [wp] at hwp
  obtain ⟨v', hghost, hk⟩ := hwp _ hinv _ _ _ hexec
  exact ⟨v', hghost, L.inv_exec hinv hexec hghost, hk⟩

theorem Good.step {c c' : Config Res Own Sh} (h : L.Good c) (hstep : M.Step c c') : L.Good c' := by
  obtain ⟨v, hv⟩ := h
  cases hstep with
  | op hexec =>
    obtain ⟨v', _, hv'⟩ := hv.ghost hexec
    exact ⟨v', hv'⟩
  | turn => exact ⟨v, hv.1, L.wp_turn hv.2⟩
  | env henv => exact ⟨v, L.inv_env hv.1 henv, hv.2⟩

theorem good_of_reach {init : Config Res Own Sh → Prop} (hinit : ∀ c, init c → L.Good c)
    {c : Config Res Own Sh} (hreach : M.Reach init c) : L.Good c := by
  induction hreach with
  | init h => exact hinit _ h
  | step _ hstep ih => exact ih.step hstep

end Logic

end Conc
