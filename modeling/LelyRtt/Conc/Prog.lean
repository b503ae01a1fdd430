import Mathlib.Logic.Relation

/-!
This module contains programs over a signature of atomic operations and their interleaving with an
environment. A program is a tree: it returns, runs one atomic operation, or enters a loop. The state
is split in a part that only the program writes and a part that it shares with the environment.
-/

namespace Conc

/--
Programs over the operations `Op`, where the operation `o` answers with a `Res o`. `iter body s k`
runs `body` from `s` again and again until it leaves with an `inr`.
-/
inductive Prog {Op : Type} (Res : Op → Type) : Type → Type 1
  | ret {α : Type} (a : α) : Prog Res α
  | op {α : Type} (o : Op) (k : Res o → Prog Res α) : Prog Res α
  | iter {α β σ : Type} (body : σ → Prog Res (σ ⊕ β)) (s : σ) (k : β → Prog Res α) : Prog Res α

namespace Prog

variable {Op : Type} {Res : Op → Type} {α β γ σ : Type}

def bind (p : Prog Res α) (f : α → Prog Res β) : Prog Res β :=
  match p with
  | .ret a => f a
  | .op o k => .op o (fun b => (k b).bind f)
  | .iter body s k => .iter body s (fun b => (k b).bind f)

instance : Monad (Prog Res) where
  pure := .ret
  bind := .bind

/-- Run `body` from `s` until it leaves. -/
def loop (s : σ) (body : σ → Prog Res (σ ⊕ β)) : Prog Res β :=
  .iter body s .ret

/-- Run `body` on the elements of a list from left to right. -/
def forEach (body : σ → Prog Res Unit) : List σ → Prog Res Unit
  | [] => .ret ()
  | x :: xs => (body x).bind (fun _ => forEach body xs)

/-- One turn of a loop, followed by the loop or by its continuation. -/
def turn (body : σ → Prog Res (σ ⊕ β)) (s : σ) (k : β → Prog Res α) : Prog Res α :=
  (body s).bind fun
    | .inl s => .iter body s k
    | .inr b => k b

end Prog

/--
The meaning of the operations of a program (`exec`) and the steps of everything else that runs
beside it (`env`). The program alone writes `Own`, both write `Sh`.
-/
structure Machine {Op : Type} (Res : Op → Type) (Own Sh : Type) where
  exec : (o : Op) → Own → Sh → Res o → Own → Sh → Prop
  env : Own → Sh → Sh → Prop

/-- What is left of the program, the state it owns and the state it shares. -/
structure Config {Op : Type} (Res : Op → Type) (Own Sh : Type) where
  prog : Prog Res Unit
  own : Own
  sh : Sh

namespace Machine

variable {Op : Type} {Res : Op → Type} {Own Sh : Type} (M : Machine Res Own Sh)

inductive Step : Config Res Own Sh → Config Res Own Sh → Prop
  | op {o k own sh b own' sh'} : M.exec o own sh b own' sh' →
      Step ⟨.op o k, own, sh⟩ ⟨k b, own', sh'⟩
  | turn {σ β : Type} {body : σ → Prog Res (σ ⊕ β)} {s k own sh} :
      Step ⟨.iter body s k, own, sh⟩ ⟨Prog.turn body s k, own, sh⟩
  | env {p own sh sh'} : M.env own sh sh' → Step ⟨p, own, sh⟩ ⟨p, own, sh'⟩

/-- The configurations that a run from `init` reaches. -/
inductive Reach (init : Config Res Own Sh → Prop) : Config Res Own Sh → Prop
  | init {c} : init c → Reach init c
  | step {c c'} : Reach init c → M.Step c c' → Reach init c'

/-- Any number of steps. -/
def Steps : Config Res Own Sh → Config Res Own Sh → Prop := Relation.ReflTransGen M.Step

variable {M} {M' : Machine Res Own Sh} {init : Config Res Own Sh → Prop} {c c' : Config Res Own Sh}

theorem Reach.steps (h : M.Reach init c) (hsteps : M.Steps c c') : M.Reach init c' := by
  induction hsteps with
  | refl => exact h
  | tail _ hstep ih => exact .step ih hstep

theorem Step.mono (hexec : ∀ o own sh b own' sh', M.exec o own sh b own' sh' →
      M'.exec o own sh b own' sh') (henv : ∀ own sh sh', M.env own sh sh' → M'.env own sh sh')
    (h : M.Step c c') : M'.Step c c' := by
  cases h with
  | op h => exact .op (hexec _ _ _ _ _ _ h)
  | turn => exact .turn
  | env h => exact .env (henv _ _ _ h)

end Machine

namespace Config

variable {Op : Type} {Res : Op → Type} {Own Sh : Type}

/-- The operation that the program is about to run. -/
def next? (c : Config Res Own Sh) : Option Op :=
  match c.prog with
  | .op o _ => some o
  | _ => none

/-- Up to `n` steps of the program alone, where `answer` says what its operations do. -/
def advance (answer : (o : Op) → Own → Sh → Option (Res o × Own × Sh))
    : Nat → Config Res Own Sh → Config Res Own Sh
  | 0, c => c
  | n + 1, c =>
    match c.prog with
    | .ret _ => c
    | .op o k =>
      match answer o c.own c.sh with
      | none => c
      | some (b, own, sh) => advance answer n ⟨k b, own, sh⟩
    | .iter body s k => advance answer n ⟨.turn body s k, c.own, c.sh⟩

theorem steps_advance {M : Machine Res Own Sh}
    {answer : (o : Op) → Own → Sh → Option (Res o × Own × Sh)}
    (hanswer : ∀ o own sh b own' sh', answer o own sh = some (b, own', sh') →
      M.exec o own sh b own' sh') (n : Nat) (c : Config Res Own Sh)
    : M.Steps c (c.advance answer n) := by
  induction n generalizing c with
  | zero => exact .refl
  | succ n ih =>
    obtain ⟨prog, own, sh⟩ := c
    cases prog with
    | ret _ => exact .refl
    | op o k =>
      simp only [advance]
      split
      next => exact .refl
      next b own' sh' hrun => exact .head (.op (hanswer o own sh b own' sh' hrun)) (ih _)
    | iter body s k => exact .head .turn (ih _)

end Config

end Conc
