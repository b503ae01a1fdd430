import LelyRtt.Protocol.Trace

/-!
This module contains the results about the protocol owners of a node: an application transfer beside
the boot-slave process or the manual configuration of the same node.
-/

namespace LelyRtt

open Conc

variable {ι κ : Type} [DecidableEq ι] [DecidableEq κ] [Fintype ι] [Fintype κ]
  {cfg : BuildConfig} {lim : Limits} {own : Own ι κ} {sh : Shared ι κ} {v v' : View ι}
  {c : Cfg ι κ} {r : ι} {node : Nat}

/-- The owner is about to start a transfer with the node, or to make it the active one. -/
def Op.begins (sh : Shared ι κ) (node : Nat) : Op ι κ → Prop
  | .start r => (sh.heap r).nodeId = node
  | .setActive node' (some _) => node' = node
  | _ => False

/-- No transfer is active or begins on a node that boots or is configured. -/
def Cfg.Exclusive (c : Cfg ι κ) : Prop :=
  ∀ node, c.own.misc.excludes node →
    c.own.sdoActive node = none ∧ ∀ o, c.next? = some o → ¬o.begins c.sh node

/-- The limits of a run in which the local node boots only slaves without an active transfer. -/
def Limits.idleBooting : Limits := ⟨False, True, False⟩

/-- A transfer begins only on a node without a boot or a configuration. -/
theorem Inv.not_begins {o : Op ι κ} {b : o.Res} (h : Inv cfg lim own sh v) (hlim : lim.idleBoots)
    (hghost : Ghost cfg lim o own sh b v v') (hexcludes : own.misc.excludes node)
    : ¬o.begins sh node := by
  intro hbegins
  have hidle := h.exclusive hlim node hexcludes
  cases hghost with
  | look hlooks => cases o <;> simp_all [Op.begins, Op.looks]
  | @start r _ _ _ _ m hplace =>
    have hnode := (h.requests r).node_eq m (by simp [hplace, Place.node?])
    have hactive := (h.lists.active_iff m r).mpr hplace
    obtain rfl : m = node := hnode.symm.trans hbegins
    simp [hidle] at hactive
  | @activate _ _ _ _ _ m _ _ hnot =>
    obtain rfl : m = node := hbegins
    exact hnot hexcludes
  | _ => exact hbegins

/-- What a run within the limits may not answer. -/
theorem exclusive_of_good (h : (logic ι κ cfg lim).Good c) (hlim : lim.idleBoots) : c.Exclusive := by
  obtain ⟨v, hgood⟩ := h
  intro node hexcludes
  refine ⟨hgood.1.exclusive hlim node hexcludes, ?_⟩
  intro o hnext hbegins
  have hrun : o.run {} c.own c.sh = o.run {} c.own c.sh := rfl
  have hpermits : o.permits lim c.own (o.run {} c.own c.sh).1 := by
    cases o with
    | work => trivial
    | _ => trivial
  obtain ⟨v', hghost⟩ := ghost_of_next hgood hnext hrun hpermits
  exact hgood.1.not_begins hlim hghost hexcludes hbegins

/--
In a run in which the local node boots only slaves without an active transfer, application transfers
never overlap the boot or the manual configuration of their node.
-/
theorem exclusive_of_idleBoots (hreach : (restricted ι κ cfg .idleBooting).Reach (Starts cfg) c)
    : c.Exclusive :=
  exclusive_of_good (good_of_restricted hreach) trivial

/--
The local node enters Pre-operational and boots node 6, which is idle, while a transfer is active on
node 5. A remote Boot-up of node 5 cancels the transfer.
-/
theorem exclusive_of_idleBoots_bootup
    : ∃ c : Cfg Unit Unit, (restricted Unit Unit .small .idleBooting).Reach (Starts .small) c
      ∧ c.own.misc.booting 6 = true ∧ c.own.misc.booting 5 = true ∧ c.own.activated = [()]
      ∧ c.own.sdoActive 6 = none ∧ c.own.sdoActive 5 = none := by
  obtain ⟨c, hreach, hc⟩ := reach_of_runWithin .idleBooting
    (fun own work => match work with
      | .localPreop boots => boots.all fun node => own.sdoActive node = none
      | _ => true)
    (starts_blank Unit Unit .small) not_false
    (fun own work hwork => by
      cases work with
      | localPreop boots =>
        intro _ node hnode
        simpa using List.all_eq_true.mp hwork node hnode
      | remoteState => exact False.elim
      | _ => trivial)
    (Choice.starts ++ Choice.uploads 15 () 5 ++ Choice.dispatches
      ++ Choice.owners 18 { pick := true, outcome := .started }
      ++ Choice.owners 11 { work := .localPreop [6] }
      ++ Choice.owners 42 { work := .remoteState 5 stBootup .started })
    (fun c => c.own.misc.booting 6 = true ∧ c.own.misc.booting 5 = true ∧ c.own.activated = [()])
    (by decide +kernel)
  simp only [decide_eq_true_eq] at hc
  have hexclusive := exclusive_of_idleBoots hreach
  exact ⟨c, hreach, hc.1, hc.2.1, hc.2.2, (hexclusive 6 (.inl hc.1)).1, (hexclusive 5 (.inl hc.2.1)).1⟩

/--
The local node enters Pre-operational while a transfer is active on node 5, and boots node 5: the
transfer stays active.
-/
theorem not_exclusive_of_localPreop
    : ¬∀ c : Cfg Unit Unit, (machine Unit Unit .small).Reach (Starts .small) c → c.Exclusive := by
  intro hall
  obtain ⟨c, hreach, hc⟩ := reach_of_runAlong (starts_blank Unit Unit .small)
    (Choice.starts ++ Choice.uploads 15 () 5 ++ Choice.dispatches
      ++ Choice.owners 18 { pick := true, outcome := .started }
      ++ Choice.owners 11 { work := .localPreop [5] })
    (fun c => c.own.misc.booting 5 = true ∧ c.own.sdoActive 5 = some ()) (by decide +kernel)
  simp only [decide_eq_true_eq] at hc
  have hnone := (hall c hreach 5 (.inl hc.1)).1
  simp [hc.2] at hnone

/-- The limits of a run in which no node is booted for its Boot-up while it is configured. -/
def Limits.idleConfiguring : Limits := ⟨False, False, True⟩

/--
In a run in which no node is booted for its Boot-up while it is configured, the boot and the manual
configuration of a node never overlap.
-/
theorem single_of_idleCfgs (hreach : (restricted ι κ cfg .idleConfiguring).Reach (Starts cfg) c)
    : c.own.misc.Single := by
  obtain ⟨v, hgood⟩ := good_of_restricted hreach
  exact hgood.1.single trivial

/-- Node 6 boots while node 5 is configured. -/
theorem single_of_idleCfgs_other
    : ∃ c : Cfg Unit Unit, (restricted Unit Unit .small .idleConfiguring).Reach (Starts .small) c
      ∧ c.own.misc.booting 6 = true ∧ c.own.misc.cfgActive 5 = some ()
      ∧ c.own.misc.booting 5 = false := by
  obtain ⟨c, hreach, hc⟩ := reach_of_runWithin .idleConfiguring
    (fun own work => match work with
      | .remoteState node _ _ => own.misc.cfgActive node = none
      | _ => true)
    (starts_blank Unit Unit .small) not_false
    (fun _ work hwork => by
      cases work with
      | remoteState => exact fun _ _ _ => by simpa using hwork
      | localPreop => exact False.elim
      | _ => trivial)
    (Choice.starts ++ List.replicate 10 (.poster () (.cfg () 5)) ++ Choice.dispatches
      ++ Choice.owners 13 { pick := true, cfgOutcome := .started }
      ++ Choice.owners 19 { work := .remoteState 6 stBootup .started })
    (fun c => c.own.misc.booting 6 = true ∧ c.own.misc.cfgActive 5 = some ()) (by decide +kernel)
  simp only [decide_eq_true_eq] at hc
  refine ⟨c, hreach, hc.1, hc.2, ?_⟩
  by_contra hbooting
  have hnone := single_of_idleCfgs hreach 5 (by simpa using hbooting)
  simp [hc.2] at hnone

/-- A remote Boot-up of node 5 arrives while node 5 is configured: Lely boots it as well. -/
theorem not_single_of_bootup
    : ¬∀ c : Cfg Unit Unit, (machine Unit Unit .small).Reach (Starts .small) c →
      c.own.misc.Single := by
  intro hall
  obtain ⟨c, hreach, hc⟩ := reach_of_runAlong (starts_blank Unit Unit .small)
    (Choice.starts ++ List.replicate 10 (.poster () (.cfg () 5)) ++ Choice.dispatches
      ++ Choice.owners 13 { pick := true, cfgOutcome := .started }
      ++ Choice.owners 19 { work := .remoteState 5 stBootup .started })
    (fun c => c.own.misc.booting 5 = true ∧ c.own.misc.cfgActive 5 = some ()) (by decide +kernel)
  simp only [decide_eq_true_eq] at hc
  have hnone := hall c hreach 5 hc.1
  simp [hc.2] at hnone

end LelyRtt
