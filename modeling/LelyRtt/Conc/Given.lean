import LelyRtt.Conc.Wp

/-!
This module contains how one result about a program is proved on top of another. A second logic may
rely on what the first one has shown of every state, and the two combine to one logic. Programs that
run only operations of a kind need no proof of their own.
-/

namespace Conc

variable {Op : Type} {Res : Op → Type} {Own Sh View Mode : Type} {α β σ : Type}

/-- The steps of a machine between states of which `F` holds. -/
def Machine.given (M : Machine Res Own Sh) (F : Own → Sh → Prop) : Machine Res Own Sh where
  exec o own sh b own' sh' := M.exec o own sh b own' sh' ∧ F own sh
  env own sh sh' := M.env own sh sh' ∧ F own sh

/-- Every step of a run is one between states of which `F` holds, if every state of it is one. -/
theorem Machine.Steps.given {M : Machine Res Own Sh} {F : Own → Sh → Prop}
    {c c' : Config Res Own Sh} (hF : ∀ d, M.Steps c d → F d.own d.sh) (h : M.Steps c c')
    : (M.given F).Steps c c' := by
  induction h with
  | refl => exact .refl
  | tail hsteps hstep ih =>
    refine .tail ih ?_
    have hnow := hF _ hsteps
    cases hstep with
    | op hexec => exact .op ⟨hexec, hnow⟩
    | turn => exact .turn
    | env henv => exact .env ⟨henv, hnow⟩

namespace Logic

variable {M : Machine Res Own Sh} {F : Own → Sh → Prop}

theorem Good.steps {L : Logic M View} {c c' : Config Res Own Sh} (h : L.Good c)
    (hsteps : M.Steps c c') : L.Good c' := by
  induction hsteps with
  | refl => exact h
  | tail _ hstep ih => exact ih.step hstep

/--
Two logics over one machine, where `K` relies on the invariant of `L`. `U` relates their views and is
kept by the moves of both.
-/
def both (L : Logic M View) (K : Logic (M.given F) Mode) (U : View → Mode → Prop)
    (hF : ∀ {own sh v}, L.inv own sh v → F own sh)
    (hU : ∀ {o own sh b v v' m m'}, L.inv own sh v → L.ghost o own sh b v v' →
      K.ghost o own sh b m m' → U v m → U v' m')
    : Logic M (View × Mode) where
  inv own sh x := L.inv own sh x.1 ∧ K.inv own sh x.2 ∧ U x.1 x.2
  ghost o own sh b x x' := L.ghost o own sh b x.1 x'.1 ∧ K.ghost o own sh b x.2 x'.2
  inv_env h henv := ⟨L.inv_env h.1 henv, K.inv_env h.2.1 ⟨henv, hF h.1⟩, h.2.2⟩
  inv_exec h hexec hghost :=
    ⟨L.inv_exec h.1 hexec hghost.1, K.inv_exec h.2.1 ⟨hexec, hF h.1⟩ hghost.2,
      hU h.1 hghost.1 hghost.2 h.2.2⟩

theorem wp_both {L : Logic M View} {K : Logic (M.given F) Mode} {U : View → Mode → Prop}
    (hF : ∀ {own sh v}, L.inv own sh v → F own sh)
    (hU : ∀ {o own sh b v v' m m'}, L.inv own sh v → L.ghost o own sh b v v' →
      K.ghost o own sh b m m' → U v m → U v' m')
    (p : Prog Res α) {Q : α → Own → View → Prop} {R : α → Own → Mode → Prop}
    : ∀ own v m, L.wp p Q own v → K.wp p R own m →
      (L.both K U hF hU).wp p (fun a own x => Q a own x.1 ∧ R a own x.2) own (v, m) := by
  induction p with
  | ret a =>
    intro own v m hL hK
    simp only [wp] at *
    exact ⟨hL, hK⟩
  | op o k ih =>
    intro own v m hL hK
    simp only [wp] at *
    intro sh hinv b own' sh' hexec
    obtain ⟨v', hghost, hk⟩ := hL sh hinv.1 b own' sh' hexec
    obtain ⟨m', hghost', hk'⟩ := hK sh hinv.2.1 b own' sh' ⟨hexec, hF hinv.1⟩
    exact ⟨(v', m'), ⟨hghost, hghost'⟩, ih b own' v' m' hk hk'⟩
  | iter body s k ihbody ihk =>
    intro own v m hL hK
    simp only [wp] at *
    obtain ⟨J, hJ, hbody⟩ := hL
    obtain ⟨J', hJ', hbody'⟩ := hK
    refine ⟨fun s own x => J s own x.1 ∧ J' s own x.2, ⟨hJ, hJ'⟩, ?_⟩
    intro s own x hs
    apply wp_mono _ (body s) _ own x
      (ihbody s own x.1 x.2 (hbody s own x.1 hs.1) (hbody' s own x.2 hs.2))
    intro y own x hy
    cases y with
    | inl s => exact hy
    | inr b => exact ihk b own x.1 x.2 hy.1 hy.2

end Logic

/-- All operations of a program are of a kind, whatever they answer. -/
def Prog.All {α : Type} (P : Op → Prop) : Prog Res α → Prop
  | .ret _ => True
  | .op o k => P o ∧ ∀ b, (k b).All P
  | .iter body _ k => (∀ s, (body s).All P) ∧ ∀ b, (k b).All P

namespace Prog.All

variable {P : Op → Prop}

theorem ret (a : α) : (pure a : Prog Res α).All P := trivial

theorem bind {p : Prog Res α} {f : α → Prog Res β} (hp : p.All P) (hf : ∀ a, (f a).All P)
    : (p >>= f).All P := by
  change (Prog.bind p f).All P
  induction p with
  | ret a => exact hf a
  | op o k ih => exact ⟨hp.1, fun b => ih b (hp.2 b) hf⟩
  | iter body s k _ ih => exact ⟨hp.1, fun b => ih b (hp.2 b) hf⟩

theorem ite {c : Prop} [Decidable c] {p q : Prog Res α} (hp : p.All P) (hq : q.All P)
    : (if c then p else q).All P := by
  split
  . exact hp
  . exact hq

theorem loop {s : σ} {body : σ → Prog Res (σ ⊕ β)} (hbody : ∀ s, (body s).All P)
    : (Prog.loop s body).All P :=
  ⟨hbody, fun _ => trivial⟩

theorem mono {P' : Op → Prop} {p : Prog Res α} (hp : p.All P) (h : ∀ o, P o → P' o) : p.All P' := by
  induction p with
  | ret a => trivial
  | op o k ih => exact ⟨h o hp.1, fun b => ih b (hp.2 b)⟩
  | iter body s k ihbody ihk =>
    exact ⟨fun s => ihbody s (hp.1 s), fun b => ihk b (hp.2 b)⟩

/-- A step of the program leaves a program of the kind. -/
theorem step {M : Machine Res Own Sh} {c c' : Config Res Own Sh} (h : c.prog.All P)
    (hstep : M.Step c c') : c'.prog.All P := by
  cases hstep with
  | op => exact h.2 _
  | turn =>
    apply bind (h.1 _)
    intro x
    cases x with
    | inl s => exact ⟨h.1, h.2⟩
    | inr b => exact h.2 b
  | env => exact h

end Prog.All

/-- What every operation of a kind does to the owned state and the view, a program of them does. -/
theorem Logic.wp_all {M : Machine Res Own Sh} {L : Logic M View} {P : Op → Prop}
    {R : Own → View → Own → View → Prop} (hrefl : ∀ own v, R own v own v)
    (htrans : ∀ {own v own' v' own'' v''}, R own v own' v' → R own' v' own'' v'' →
      R own v own'' v'')
    (hop : ∀ o own sh b own' sh' v, P o → M.exec o own sh b own' sh' →
      ∃ v', L.ghost o own sh b v v' ∧ R own v own' v')
    {p : Prog Res α} (hp : p.All P) (own : Own) (v : View)
    : L.wp p (fun _ => R own v) own v := by
  have hall : ∀ own' v', R own v own' v' → L.wp p (fun _ => R own v) own' v' := by
    induction p with
    | ret a =>
      intro own' v' hR
      simpa using hR
    | op o k ih =>
      intro own' v' hR
      simp only [wp]
      intro sh _ b own'' sh' hexec
      obtain ⟨v'', hghost, hR'⟩ := hop o own' sh b own'' sh' v' hp.1 hexec
      exact ⟨v'', hghost, ih b (hp.2 b) own'' v'' (htrans hR hR')⟩
    | iter body s k ihbody ihk =>
      intro own' v' hR
      simp only [wp]
      refine ⟨fun _ own' v' => R own v own' v', hR, ?_⟩
      intro s own' v' hR
      apply L.wp_mono _ _ own' v' (ihbody s (hp.1 s) own' v' hR)
      intro x own' v' hR
      cases x with
      | inl s => exact hR
      | inr b => exact ihk b (hp.2 b) own' v' hR
  exact hall own v (hrefl own v)

end Conc
