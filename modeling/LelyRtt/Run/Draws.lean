import LelyRtt.Run.Clients

/-!
This module contains runs whose SDO posts are counted. A post draws its request id from a 32-bit
counter, so the id of a request says how many posts had been attempted when it was drawn, as long as
the counter has not come around.
-/

namespace LelyRtt

open Conc

variable {ι κ : Type} [DecidableEq ι] [DecidableEq κ]

/--
The SDO posts attempted so far, the number of the post that drew the id of a request, 0 for none, and
how many had been attempted when `lely_rtt_sdo_request_cancel` was last called for it.
-/
structure Draws (ι : Type) where
  count : Nat
  drawn : ι → Nat
  called : ι → Nat

def Draws.after (d : Draws ι) (sh sh' : Shared ι κ) : Draws ι where
  count := if sh'.sdoNextRequestId = sh.sdoNextRequestId then d.count else d.count + 1
  drawn r :=
    match sh.app r, sh'.app r with
    | .postId _, .postFill _ _ => d.count + 1
    | _, _ => d.drawn r
  called r :=
    match sh.app r, sh'.app r with
    | .idle, .cancelLoad => d.count
    | _, _ => d.called r

/-- A run whose posts are counted. -/
inductive Counted (cfg : BuildConfig) : Cfg ι κ → Draws ι → Prop
  | start {c : Cfg ι κ} : StartsOff cfg c → Counted cfg c ⟨0, fun _ => 0, fun _ => 0⟩
  | step {c c' : Cfg ι κ} {d : Draws ι} : Counted cfg c d → (machine ι κ cfg).Step c c' →
      Counted cfg c' (d.after c.sh c'.sh)

/-- The thread has not drawn an id in this run, or its post was refused before it did. -/
def AppPc.early : AppPc → Bool
  | .idle | .postLocalId _ | .postState _ | .postId _ | .cancelLoad | .destroyLoad | .destroyRefs
  | .destroyFree | .destroyed => true
  | _ => false

section

variable {cfg : BuildConfig} {sh sh' : Shared ι κ} {r : ι}

theorem commandPostStep_nextId (cfg : BuildConfig) (sh : Shared ι κ) (tid : Tid ι κ)
    (command : Command ι κ) (pc : PostPc)
    : (commandPostStep cfg tid command pc sh).2.sdoNextRequestId = sh.sdoNextRequestId := by
  fun_cases commandPostStep cfg tid command pc sh <;> rfl

theorem Effect.apply_nextId {eff : Effect ι κ} (heff : eff ≠ .nextId)
    : (eff.apply cfg r sh).sdoNextRequestId = sh.sdoNextRequestId := by
  cases eff with
  | nextId => exact absurd rfl heff
  | post command pc => exact commandPostStep_nextId ..
  | _ => rfl

theorem posterStep_nextId {i : κ} {command : Command ι κ}
    (h : posterStep cfg i command sh = some sh') : sh'.sdoNextRequestId = sh.sdoNextRequestId := by
  unfold posterStep at h
  split at h
  next =>
    split at h
    next =>
      cases h
      rfl
    next => cases h
  next command' pc _ =>
    have hnext := commandPostStep_nextId cfg sh (.poster i) command' pc
    split at h
    all_goals
      next heq =>
        cases h
        rw [heq] at hnext
        exact hnext

omit [DecidableEq κ] in
theorem waiterStep_nextId {timeout : Bool} (h : waiterStep r timeout sh = some sh')
    : sh'.sdoNextRequestId = sh.sdoNextRequestId := by
  obtain ⟨_, _, _, _, rfl⟩ := waiterStep_cases h
  rfl

/-- What a step that draws no id does to a request and its thread. -/
structure Undrawn (pc pc' : AppPc) (request request' : Request ι) : Prop where
  kept : (∀ args id, pc ≠ .postFill args id) → request'.requestId = request.requestId
  fill : ∀ args id, pc' = .postFill args id → pc = .postFill args id
  filled : ∀ args id, pc = .postFill args id → pc' = .postFill args id ∨ request'.requestId = id
  early : pc.early → request.state = .new ∨ request.state = .done →
    pc'.early ∧ (request'.state = .new ∨ request'.state = .done)

omit [DecidableEq ι] in
theorem Undrawn.same {pc : AppPc} {request : Request ι} {completion : Bool}
    : Undrawn pc pc request { request with completion := completion } :=
  ⟨fun _ => rfl, fun _ _ => id, fun _ _ => .inl, fun h h' => ⟨h, h'⟩⟩

theorem AppMove.undrawn {pc pc' : AppPc} {request request' : Request ι} {eff : Effect ι κ}
    {evs : List ReqEvent} (h : AppMove cfg r sh pc request eff pc' request' evs)
    (heff : eff ≠ .nextId) : Undrawn pc pc' request request' := by
  cases h with
  | postId => exact absurd rfl heff
  | postFill => exact ⟨by simp, by simp, by simp [PostArgs.fill], by simp [AppPc.early]⟩
  | cancelNext hretry hnext =>
    obtain rfl | ⟨_, rfl⟩ | rfl := AppPc.retrying_cases hretry
    all_goals
      obtain ⟨_, rfl⟩ | ⟨kind, hst, rfl⟩ := cancelNext_inl hnext
      . exact ⟨by simp, by simp, by simp, by simp_all [AppPc.early]⟩
      . exact ⟨by simp, by simp, by simp, by cases kind <;> simp [hst, PinKind.base]⟩
  | cancelRet hretry hnext =>
    obtain rfl | ⟨_, rfl⟩ | rfl := AppPc.retrying_cases hretry
      <;> exact ⟨by simp, by simp, by simp, by simp [AppPc.early]⟩
  | _ => exact ⟨by simp [Request.clear], by simp, by simp, by simp [AppPc.early, Request.clear]⟩

/-- What a step of the other threads does about the ids: one of them draws, or none does. -/
inductive IdStep (sh sh' : Shared ι κ) : Prop
  | draw (r : ι) (args : PostArgs) : sh.app r = .postId args →
      sh' = ({ sh with sdoNextRequestId := sh.sdoNextRequestId + 1 }.setApp r
        (.postFill args (sh.sdoNextRequestId + 1))) → IdStep sh sh'
  | other : sh'.sdoNextRequestId = sh.sdoNextRequestId →
      (∀ r, Undrawn (sh.app r) (sh'.app r) (sh.heap r) (sh'.heap r)) → IdStep sh sh'

omit [DecidableEq κ] in
theorem IdStep.of_same (hnext : sh'.sdoNextRequestId = sh.sdoNextRequestId)
    (hsame : SameRequests sh sh') : IdStep sh sh' := by
  refine .other hnext fun r => ?_
  obtain ⟨completion, hheap⟩ := hsame.heap r
  rw [hsame.app, hheap]
  exact .same

theorem EnvStep.idStep (h : EnvStep cfg sh sh')
    (hpossible : ∀ r, (sh.app r).Possible (sh.heap r)) : IdStep sh sh' := by
  cases h with
  | app r call hstep =>
    by_cases hdraw : ∃ args, sh.app r = .postId args
    . obtain ⟨args, hpc⟩ := hdraw
      unfold appStep at hstep
      simp only [hpc, Option.some_inj] at hstep
      exact .draw r args hpc hstep.symm
    . obtain ⟨eff, pc, request, evs, hm, rfl⟩ := appStep_cases (hpossible r) hstep
      have heff : eff ≠ .nextId := by
        rintro rfl
        generalize hpc : sh.app r = old at hm
        cases hm with
        | postId => exact hdraw ⟨_, hpc⟩
      obtain ⟨hheap, _, happ, _⟩ := Effect.apply_same cfg r sh eff
      refine .other (Effect.apply_nextId heff) fun r' => ?_
      by_cases hr : r' = r
      . subst hr
        simpa using hm.undrawn heff
      . simpa [Shared.settle, hr, hheap, happ] using Undrawn.same
  | waiter r timeout hstep => exact .of_same (waiterStep_nextId hstep) (waiterStep_same hstep).2
  | poster i command hstep =>
    obtain ⟨_, _, hsame⟩ := posterStep_same hstep
    exact .of_same (posterStep_nextId hstep) hsame
  | control =>
    unfold controlStep
    split <;> exact .of_same rfl (.of_eq rfl rfl rfl rfl rfl rfl id)

omit [DecidableEq κ] in
theorem run_nextId {o : Op ι κ} (input : Input) (own : Own ι κ) (sh : Shared ι κ)
    : (o.run input own sh).2.2.sdoNextRequestId = sh.sdoNextRequestId := by
  cases hwrites : o.writes? with
  | some r =>
    obtain ⟨request, evs, heq⟩ := run_writes input own sh hwrites
    simp [heq, Shared.settle]
  | none =>
    cases o with
    | mqReceive by_ =>
      simp only [Op.run]
      split <;> rfl
    | _ => simp_all [Op.run, Op.writes?]

namespace Draws

variable (d : Draws ι)

omit [DecidableEq ι] [DecidableEq κ] in
theorem after_same (happ : sh'.app = sh.app) (hnext : sh'.sdoNextRequestId = sh.sdoNextRequestId)
    : d.after sh sh' = d := by
  have hdrawn (r : ι) : (d.after sh sh').drawn r = d.drawn r := by
    simp only [after, happ]
    cases sh.app r <;> rfl
  have hcalled (r : ι) : (d.after sh sh').called r = d.called r := by
    simp only [after, happ]
    cases sh.app r <;> rfl
  obtain ⟨count, drawn, called⟩ := d
  simp only [after, hnext, ↓reduceIte, mk.injEq, true_and]
  exact ⟨funext hdrawn, funext hcalled⟩

omit [DecidableEq ι] [DecidableEq κ] in
theorem after_other (hnext : sh'.sdoNextRequestId = sh.sdoNextRequestId)
    (hkept : ∀ r, Undrawn (sh.app r) (sh'.app r) (sh.heap r) (sh'.heap r))
    : (d.after sh sh').count = d.count ∧ (d.after sh sh').drawn = d.drawn := by
  refine ⟨by simp [after, hnext], funext fun r => ?_⟩
  simp only [after]
  split
  next args args' id hpc hpc' =>
    have hfill := (hkept r).fill args' id hpc'
    simp [hpc] at hfill
  next => rfl

omit [DecidableEq κ] in
theorem after_draw {args : PostArgs} (hpc : sh.app r = .postId args)
    (hsh' : sh' = ({ sh with sdoNextRequestId := sh.sdoNextRequestId + 1 }.setApp r
      (.postFill args (sh.sdoNextRequestId + 1))))
    : (d.after sh sh').count = d.count + 1
      ∧ (d.after sh sh').drawn = Function.update d.drawn r (d.count + 1) := by
  subst hsh'
  constructor
  . simp [after, Shared.setApp]
  . funext r'
    by_cases hr : r' = r
    . subst hr
      simp [after, Shared.setApp, hpc]
    . simp only [after, Shared.setApp, Function.update_of_ne hr]
      cases sh.app r' <;> rfl

end Draws

/-- The id of a request is the number of the post that drew it, counted from `base`. -/
structure DrawsOk (base : BitVec 32) (sh : Shared ι κ) (d : Draws ι) : Prop where
  count : sh.sdoNextRequestId = base + BitVec.ofNat 32 d.count
  le : ∀ r, d.drawn r ≤ d.count
  inj : ∀ r r', d.drawn r' = d.drawn r → d.drawn r ≠ 0 → r' = r
  fill : ∀ r args id, sh.app r = .postFill args id →
    id = base + BitVec.ofNat 32 (d.drawn r) ∧ d.drawn r ≠ 0
  ident : ∀ r, d.drawn r ≠ 0 → (∀ args id, sh.app r ≠ .postFill args id) →
    (sh.heap r).requestId = base + BitVec.ofNat 32 (d.drawn r)
  undrawn : ∀ r, d.drawn r = 0 →
    (sh.app r).early ∧ ((sh.heap r).state = .new ∨ (sh.heap r).state = .done)

namespace DrawsOk

variable {base : BitVec 32} {d : Draws ι}

omit [DecidableEq κ] in
theorem env (h : DrawsOk base sh d) (hstep : IdStep sh sh') : DrawsOk base sh' (d.after sh sh') := by
  cases hstep with
  | draw r args hpc hsh' =>
    obtain ⟨hcount, hdrawn⟩ := d.after_draw hpc hsh'
    have happ : sh'.app = Function.update sh.app r (.postFill args (sh.sdoNextRequestId + 1)) := by
      rw [hsh']
      rfl
    have hheap : sh'.heap = sh.heap := by
      rw [hsh']
      rfl
    have hnext : sh'.sdoNextRequestId = base + BitVec.ofNat 32 (d.count + 1) := by
      rw [hsh', BitVec.ofNat_add, ← BitVec.add_assoc, ← h.count]
      rfl
    have hid : sh.sdoNextRequestId + 1 = sh'.sdoNextRequestId := by
      rw [hsh']
      rfl
    generalize d.after sh sh' = d' at hcount hdrawn ⊢
    constructor
    case count => rw [hcount, hnext]
    case le =>
      intro r'
      rw [hcount, hdrawn]
      by_cases hr : r' = r
      . simp [hr]
      . simpa [hr] using Nat.le_succ_of_le (h.le r')
    case inj =>
      intro r₁ r₂ heq hne
      rw [hdrawn] at heq hne
      have hle₁ := h.le r₁
      have hle₂ := h.le r₂
      by_cases hr₁ : r₁ = r <;> by_cases hr₂ : r₂ = r
      . rw [hr₁, hr₂]
      . simp only [hr₁, Function.update_self, Function.update_of_ne hr₂] at heq
        omega
      . simp only [hr₂, Function.update_self, Function.update_of_ne hr₁] at heq
        omega
      . simp only [Function.update_of_ne hr₁, Function.update_of_ne hr₂] at heq hne
        exact h.inj r₁ r₂ heq hne
    case fill =>
      intro r' args' id hfill
      rw [hdrawn]
      by_cases hr : r' = r
      . simp only [happ, hr, Function.update_self, AppPc.postFill.injEq] at hfill
        rw [hr, Function.update_self, ← hfill.2, hid]
        exact ⟨hnext, Nat.succ_ne_zero _⟩
      . simp only [happ, Function.update_of_ne hr] at hfill ⊢
        exact h.fill r' args' id hfill
    case ident =>
      intro r' hne hfill
      have hr : r' ≠ r := by
        rintro rfl
        exact hfill args _ (by rw [happ, Function.update_self])
      rw [hdrawn, Function.update_of_ne hr] at hne ⊢
      rw [hheap]
      rw [happ, Function.update_of_ne hr] at hfill
      exact h.ident r' hne hfill
    case undrawn =>
      intro r' hzero
      have hr : r' ≠ r := by
        rintro rfl
        simp [hdrawn] at hzero
      rw [hdrawn, Function.update_of_ne hr] at hzero
      rw [hheap, happ, Function.update_of_ne hr]
      exact h.undrawn r' hzero
  | other hnext hkept =>
    obtain ⟨hcount, hdrawn⟩ := d.after_other hnext hkept
    constructor
    case count => rw [hcount, hnext, h.count]
    case le =>
      rw [hcount, hdrawn]
      exact h.le
    case inj =>
      rw [hdrawn]
      exact h.inj
    case fill =>
      intro r args id hpc
      rw [hdrawn]
      exact h.fill r args id ((hkept r).fill args id hpc)
    case ident =>
      intro r hne hpc
      rw [hdrawn] at hne ⊢
      by_cases hfill : ∃ args id, sh.app r = .postFill args id
      . obtain ⟨args, id, hfill⟩ := hfill
        have hid := ((hkept r).filled args id hfill).resolve_left (hpc args id)
        rw [hid, (h.fill r args id hfill).1]
      . push Not at hfill
        rw [(hkept r).kept hfill, h.ident r hne hfill]
    case undrawn =>
      intro r hzero
      rw [hdrawn] at hzero
      obtain ⟨hearly, hst⟩ := h.undrawn r hzero
      exact (hkept r).early hearly hst

end DrawsOk

end

end LelyRtt
