import LelyRtt.Protocol.ClientEntry
import LelyRtt.Protocol.Trace

/-!
This module contains the results about the Client-SDOs: which receivers run, who may use an NMT-owned
Client-SDO, and that no two nodes have a transfer on the same one.
-/

namespace LelyRtt

open Conc

variable {ι κ : Type} [DecidableEq ι] [DecidableEq κ] {cfg : BuildConfig} {c c' : Cfg ι κ}
  {work : LelyWork}

/--
The owner is about to run, and no application Client-SDO receives: `lely_rtt_runtime_create` and
`lely_rtt_master_sdo_fini` leave none.
-/
structure StartsOff (cfg : BuildConfig) (c : Cfg ι κ) : Prop extends Starts cfg c where
  off : ∀ node, c.own.ClientOff node
  stop : ∀ node, c.own.misc.sdoStopPending node = false

/-- A run, and what Lely runs at its end. -/
inductive Runs (cfg : BuildConfig) : Cfg ι κ → LelyWork → Prop
  | start {c : Cfg ι κ} : StartsOff cfg c → Runs cfg c .none
  | op {o : Op ι κ} {k own sh input b own' sh' work} : Runs cfg ⟨.op o k, own, sh⟩ work →
      o.run input own sh = (b, own', sh') → Runs cfg ⟨k b, own', sh'⟩ (work.after o b)
  | turn {σ β : Type} {body : σ → Owner ι κ (σ ⊕ β)} {s k own sh work} :
      Runs cfg ⟨.iter body s k, own, sh⟩ work → Runs cfg ⟨.turn body s k, own, sh⟩ work
  | env {p own sh sh' work} : Runs cfg ⟨p, own, sh⟩ work → EnvStep cfg sh sh' →
      Runs cfg ⟨p, own, sh'⟩ work

theorem Runs.step (h : Runs cfg c work) (hstep : (machine ι κ cfg).Step c c')
    : ∃ work', Runs cfg c' work' := by
  cases hstep with
  | op hexec =>
    obtain ⟨input, hrun⟩ := hexec
    exact ⟨_, .op h hrun⟩
  | turn => exact ⟨_, .turn h⟩
  | env henv => exact ⟨_, .env h henv⟩

/-- Every run has something that Lely runs at its end. -/
theorem Runs.of_reach (h : (machine ι κ cfg).Reach (StartsOff cfg) c) : ∃ work, Runs cfg c work := by
  induction h with
  | init hstart => exact ⟨_, .start hstart⟩
  | step _ hstep ih =>
    obtain ⟨work, ih⟩ := ih
    exact ih.step hstep

theorem Runs.reach (h : Runs cfg c work) : (machine ι κ cfg).Reach (StartsOff cfg) c := by
  induction h with
  | start hstart => exact .init hstart
  | op _ hrun ih => exact .step ih (.op ⟨_, hrun⟩)
  | turn _ ih => exact .step ih .turn
  | env _ henv ih => exact .step ih (.env henv)

theorem StartsOff.settled (h : StartsOff cfg c) : c.own.Settled := by
  intro node
  refine ⟨by simp [h.active], by simp [h.stop], fun _ _ _ => h.off node, ?_⟩
  obtain hoff | hoff := h.off node <;> simp [hoff]

variable [Fintype ι] [Fintype κ]

theorem StartsOff.keeps (h : StartsOff cfg c) (m : Mode ι)
    : Keeps cfg c.prog c.own m fun _ own' _ => own'.Settled := by
  rw [h.prog]
  exact ownerEntry_keeps h.settled fun node => ⟨h.active node, h.stop node⟩

/-- Right after the owner was between two operations, nothing is in its hand. -/
def Resting (v : View ι) (m : Mode ι) : Prop :=
  m.rest = true → v.Rest

omit [DecidableEq κ] [Fintype ι] [Fintype κ] in
theorem Resting.next {own : Own ι κ} {sh : Shared ι κ} {o : Op ι κ} {b : o.Res} {v v' : View ι}
    {m m' : Mode ι} (hghost : Ghost cfg .none o own sh b v v') (hnext : m.Next sh o b m')
    : Resting v' m' := by
  intro hrest
  obtain rfl := hnext.rest hrest
  cases hghost with
  | look hlooks => simp [Op.looks] at hlooks
  | between hrest => exact hrest

/-- The program logic for all that is known about a run. -/
abbrev runLogic (ι κ : Type) [DecidableEq ι] [DecidableEq κ] [Fintype ι] [Fintype κ]
    (cfg : BuildConfig) : Logic (restricted ι κ cfg .none) (View ι × Mode ι) :=
  (logic ι κ cfg .none).both (clients ι κ cfg) Resting (fun hinv => ⟨_, hinv⟩)
    (fun _ hghost hghost' _ => .next hghost hghost'.2)

theorem Runs.good (h : Runs cfg c work)
    : ∃ v m, (runLogic ι κ cfg).GoodAt c (v, m) ∧ m.work = work := by
  induction h with
  | start hstart =>
    obtain ⟨v, hinv, hwp⟩ := hstart.toStarts.good
    refine ⟨v, ⟨.none, false, none⟩, ⟨⟨hinv, by simp [clients, Mode.Known], by simp [Resting]⟩, ?_⟩, rfl⟩
    exact (runLogic ι κ cfg).wp_mono _ (fun _ _ _ _ => trivial) _ _
      (Logic.wp_both (fun hinv => ⟨_, hinv⟩) (fun _ hghost hghost' _ => .next hghost hghost'.2)
        _ _ _ _ hwp (hstart.keeps _))
  | op _ hrun ih =>
    obtain ⟨v, m, hgood, hwork⟩ := ih
    obtain ⟨⟨v', m'⟩, hghost, hgood'⟩ := hgood.ghost ⟨⟨_, hrun⟩, permits_none ..⟩
    exact ⟨v', m', hgood', hwork ▸ hghost.2.2.work⟩
  | turn _ ih =>
    obtain ⟨v, m, hgood, hwork⟩ := ih
    exact ⟨v, m, ⟨hgood.1, Logic.wp_turn _ hgood.2⟩, hwork⟩
  | env _ henv ih =>
    obtain ⟨v, m, hgood, hwork⟩ := ih
    exact ⟨v, m, ⟨(runLogic ι κ cfg).inv_env hgood.1 ⟨henv, False.elim⟩, hgood.2⟩, hwork⟩

/-- What an operation relies on when it runs. -/
theorem guarded_of_next {v : View ι} {m : Mode ι} {o : Op ι κ}
    (h : (runLogic ι κ cfg).GoodAt c (v, m)) (hnext : c.next? = some o) : o.Guarded c.own m := by
  obtain ⟨prog, own, sh⟩ := c
  cases prog with
  | op o' k =>
    cases hnext
    have hrun : o.run {} own sh = o.run {} own sh := rfl
    obtain ⟨_, hghost, _⟩ := h.ghost ⟨⟨{}, hrun⟩, permits_none ..⟩
    exact hghost.2.1
  | _ => cases hnext

/-- The Client-SDOs between two operations of the owner. -/
structure ClientsOk (own : Own ι κ) (node : Nat) : Prop where
  -- without a transfer and a pending stop, the receiver of the node does not run
  quiet : sdoUsesPredefined own.misc node → own.sdoActive node = none →
    own.misc.sdoStopPending node = false → own.ClientOff node
  -- a receiver that waits to be stopped is idle
  pending : own.misc.sdoStopPending node = true →
    sdoUsesPredefined own.misc node ∧ own.csdo (.predefined node) = some .idle
  -- a transfer runs on the Client-SDO that the node uses, and on no other node's
  active : ∀ r, own.sdoActive node = some r → own.csdo (own.misc.chan node) = some (.busy r)
    ∧ ∀ node', node' ≠ node → ∀ r', own.sdoActive node' = some r' →
      own.misc.chan node' ≠ own.misc.chan node

omit [DecidableEq ι] [DecidableEq κ] [Fintype ι] [Fintype κ] in
theorem Own.Settled.clientsOk {own : Own ι κ} (hset : own.Settled)
    (hinj : ∀ r node node', own.sdoActive node = some r → own.sdoActive node' = some r → node' = node)
    (node : Nat) : ClientsOk own node where
  quiet := (hset node).quiet
  pending := (hset node).pending
  active r hactive := ⟨((hset node).active r hactive).1,
    fun _ hne _ hactive' => hset.chan_ne (hinj r node · hactive) hactive hne hactive'⟩

/--
Client-SDO receiver ownership. Between two operations of the owner the receivers fit the transfers;
when the owner has reaped and is about to wait for an event, no receiver waits to be stopped, and the
predefined receiver of a node without a transfer does not run; and an NMT-owned Client-SDO is changed
only by NMT, or by the start and the end of the bridge's own transfer on it.
-/
theorem clients_owned (hruns : Runs cfg c work)
    : (c.next? = some .between ∨ c.next? = some .receive → ∀ node, ClientsOk c.own node)
      ∧ (c.next? = some .receive → ∀ node, node ≠ 0 → node ≤ numNodes →
        c.own.misc.sdoStopPending node = false
          ∧ (sdoUsesPredefined c.own.misc node → c.own.sdoActive node = none →
            c.own.ClientOff node))
      ∧ ∀ number csdo, c.next? = some (.setCsdo (.custom number) csdo) →
        work.manages number ∨ c.own.MaySet (.custom number) csdo := by
  obtain ⟨v, m, hgood, hwork⟩ := hruns.good
  have hsound : Sound cfg c.own c.sh := ⟨v, hgood.1.1⟩
  have hinj (r : ι) (node node' : Nat) (hactive : c.own.sdoActive node = some r)
      (hactive' : c.own.sdoActive node' = some r) : node' = node :=
    hsound.active_inj hactive hactive'
  refine ⟨?_, ?_, ?_⟩
  . rintro (hnext | hnext)
    . exact (guarded_of_next hgood hnext : c.own.Settled).clientsOk hinj
    . exact (guarded_of_next hgood hnext).1.clientsOk hinj
  . intro hnext node hnode hle
    obtain ⟨hset, hreaped⟩ := guarded_of_next hgood hnext
    have hstop : c.own.misc.sdoStopPending node = false := by
      by_contra hpending
      have hpending : c.own.misc.sdoStopPending node = true := by simpa using hpending
      have hactive := (hreaped node hnode hle).resolve_right (by simp [hpending])
      obtain ⟨r, hactive⟩ := Option.ne_none_iff_exists'.mp hactive
      simp [((hset node).active r hactive).2] at hpending
    exact ⟨hstop, fun huses hnone => (hset node).quiet huses hnone hstop⟩
  . intro number csdo hnext
    have hguarded := guarded_of_next hgood hnext
    rw [← hwork]
    exact hguarded

/-- After a transfer with node 5 the owner waits again, and the receiver of the node is stopped. -/
theorem clients_owned_reaped
    : ∃ (c : Cfg Unit Unit) (work : LelyWork), Runs .small c work ∧ c.next? = some .receive
      ∧ c.own.activated = [()] ∧ c.own.csdo (.predefined 5) = some .stopped
      ∧ c.own.misc.sdoStopPending 5 = false := by
  have hstart : StartsOff .small (.blank Unit Unit .small) :=
    { starts_blank Unit Unit .small with
      off := fun _ => .inl rfl
      stop := fun _ => rfl }
  obtain ⟨c, hrun, hc⟩ : ∃ c, runAlong .small
      (Choice.starts ++ Choice.uploads 15 () 5 ++ Choice.dispatches
        ++ Choice.owners 30 { pick := true, outcome := .confirmed 0 [] true false }
        ++ Choice.owners 525 {}) (.blank Unit Unit .small) = some c
      ∧ (c.atReceive && decide (c.own.activated = [()]
        ∧ c.own.csdo (.predefined 5) = some .stopped)) := by
    rw [← Option.any_eq_true]
    decide +kernel
  simp only [Bool.and_eq_true, decide_eq_true_eq] at hc
  have hnext := Cfg.next_of_atReceive hc.1
  obtain ⟨work, hruns⟩ := Runs.of_reach ((Machine.Reach.init hstart).steps (runAlong_sound hrun))
  exact ⟨c, work, hruns, hnext, hc.2.1, hc.2.2,
    ((clients_owned hruns).2.1 hnext 5 (by decide) (by decide)).1⟩

end LelyRtt
