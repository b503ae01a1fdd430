import LelyRtt.Conc.Wp
import LelyRtt.Protocol.Order
import LelyRtt.Protocol.Wake
import LelyRtt.Owner.Entry

/-!
This module contains the invariant of a run of the owner beside the application threads, and the
program logic for the code of the owner that rests on it.
-/

namespace LelyRtt

open Conc

variable {ι κ : Type} [DecidableEq ι] [DecidableEq κ] [Fintype ι] [Fintype κ]

structure Inv (cfg : BuildConfig) (lim : Limits) (own : Own ι κ) (sh : Shared ι κ) (v : View ι)
    : Prop where
  requests : Requests own sh v
  lists : Lists cfg own sh v
  commands : Commands cfg own sh v
  sent : Sent sh
  idents : Idents sh v
  pins : Pins own sh v
  order : Order own sh v
  wake : Wake lim sh v
  exclusive : lim.idleBoots → ∀ node, own.misc.excludes node → own.sdoActive node = none
  single : lim.idleCfgs → own.misc.Single
  gate : own.misc.gate = Gate.opened.run own.misc.gateLog

/-- What the limits of a run demand of an answer of the outside world. -/
def Op.permits (lim : Limits) (own : Own ι κ) (o : Op ι κ) (b : o.Res) : Prop :=
  match o, b with
  | .work, .localPreop boots => lim.idleBoots → ∀ node ∈ boots, own.sdoActive node = none
  | .work, .remoteState node st boot =>
    lim.idleCfgs → st = stBootup → boot ≠ .refused → own.misc.cfgActive node = none
  | _, _ => True

/-- The owner beside the application threads, as long as the run keeps within the limits. -/
def restricted (ι κ : Type) [DecidableEq ι] [DecidableEq κ] (cfg : BuildConfig) (lim : Limits)
    : Machine (@Op.Res ι κ) (Own ι κ) (Shared ι κ) where
  exec o own sh b own' sh' := (machine ι κ cfg).exec o own sh b own' sh' ∧ o.permits lim own b
  env _ sh sh' := EnvStep cfg sh sh' ∧ (lim.uniqueIds → UniqueIds sh')

namespace Inv

variable {cfg : BuildConfig} {lim : Limits} {own own' : Own ι κ} {sh sh' : Shared ι κ}
  {v v' : View ι} {o : Op ι κ} {input : Input} {b : o.Res}

/-- The requests whose commands were taken out of the queue had been sent. -/
theorem mem_sent (h : Inv cfg lim own sh v) {r : ι} (hr : r ∈ own.takenSdo)
    : r ∈ sh.sent.filterMap (·.command.sdo?) := by
  rw [← h.commands.taken_eq, List.filterMap_append, List.filterMap_map]
  exact List.mem_append_left _ hr

theorem empty_queue (h : Inv cfg lim own sh v)
    (hphase : v.phase.created = false ∨ v.phase.drained = true) : sh.queue = [] :=
  h.commands.queue_eq_nil hphase

/-- The command of a request in the queue is all that the owner has of it. -/
theorem away_of_queued (h : Inv cfg lim own sh v) {entry : Entry ι κ} {r : ι}
    (hentry : entry ∈ sh.queue) (hcommand : entry.command = .sdo r) : v.place r = .away := by
  have htid := (h.sent.posted h.commands).tid_eq entry hentry r hcommand
  have hmem : (⟨.app r, .sdo r⟩ : Entry ι κ) ∈ sh.queue := by
    rw [← htid, ← hcommand]
    exact hentry
  exact ((h.requests r).queued_iff.mp hmem).1

theorem env (h : Inv cfg lim own sh v) (henv : EnvStep cfg sh sh')
    (hunique : lim.uniqueIds → UniqueIds sh') : Inv cfg lim own sh' v := by
  cases henv.move h.requests.possible with
  | app r hm heq =>
    subst heq
    exact
      {
        requests := h.requests.app hm
        lists := h.lists.app h.requests hm
        commands := h.commands.env_step hm.commandStep
          (fun tid htid => AppMove.posting_of_ne _ _ _ _ htid)
        sent := h.sent.app h.requests hm
        idents := h.idents.app h.requests hm
        pins := h.pins.app h.requests hm
        order := h.order.app h.requests h.sent (fun r hr => h.mem_sent hr) hm
        wake := h.wake.app h.requests h.pins h.idents hm hunique
        exclusive := h.exclusive
        single := h.single
        gate := h.gate
      }
  | poster i hstep hother hforeign hposter hsame =>
    obtain ⟨pushed, hqueue, hsent, hpushed⟩ := hstep.queue
    obtain ⟨hold, hout, hmem⟩ := h.wake.grows hstep hother
    have hforeign' (j : κ) (command : Command ι κ) (pc : PostPc)
        (hposting : sh'.poster j = .posting command pc) : command.foreign j := by
      by_cases heq : j = i
      . subst heq
        obtain hforeign | ⟨pc, hposting⟩ := hforeign command pc hposting
        . exact hforeign
        . exact h.sent.foreign j command pc hposting
      . rw [hposter j heq] at hposting
        exact h.sent.foreign j command pc hposting
    have hsdo (entry : Entry ι κ) (hentry : entry ∈ pushed) : entry.command.sdo? = none := by
      obtain ⟨_, hposting⟩ := hpushed entry hentry
      simp only [Shared.posting] at hposting
      split at hposting
      next command pc heq =>
        have hnot := hforeign' i command pc heq
        cases hposting
        cases hc : entry.command <;> simp_all [Command.foreign, Command.sdo?]
      next => cases hposting
    exact
      {
        requests := by
          refine h.requests.same hsame fun r => ?_
          rw [hqueue, List.mem_append, or_iff_left]
          intro hentry
          cases (hpushed _ hentry).1
        lists := h.lists.same hsame
        commands := h.commands.env_step hstep hother
        sent := by
          refine h.sent.same hsame ?_ ?_ hforeign'
          . rw [hsent, List.filterMap_append, List.filterMap_eq_nil_iff.mpr hsdo, List.append_nil]
          . intro entry hentry r hcommand
            rw [hsent, List.mem_append] at hentry
            apply hentry.resolve_right
            intro hentry
            simpa [hcommand, Command.sdo?] using hsdo entry hentry
        idents := h.idents.same hsame
        pins := h.pins.same hsame
        order := h.order.same hsame
        wake := h.wake.same hsame hold hout hmem
        exclusive := h.exclusive
        single := h.single
        gate := h.gate
      }
  | other hposts hsame =>
    have hqueue : sh'.queue = sh.queue := by simp only [Shared.queue, hposts.mq]
    exact
      {
        requests := h.requests.same hsame (by simp [hqueue])
        lists := h.lists.same hsame
        commands := h.commands.same hposts
        sent := h.sent.same hsame (by rw [hposts.sent]) (by rw [hposts.sent]; exact fun _ he _ _ => he)
          (by rw [hposts.poster]; exact h.sent.foreign)
        idents := h.idents.same hsame
        pins := h.pins.same hsame
        order := h.order.same hsame
        wake := h.wake.same hsame (hqueue ▸ h.wake.old_le)
          (by
            rw [hqueue]
            intro entry hentry
            refine (h.wake.outstanding entry hentry).imp hsame.event ?_
            rw [hposts.posting]
            exact id)
          (by rw [hqueue]; exact fun _ he => he)
        exclusive := h.exclusive
        single := h.single
        gate := h.gate
      }

omit [DecidableEq κ] [Fintype ι] [Fintype κ] in
theorem exec_exclusive (h : ∀ node, own.misc.excludes node → own.sdoActive node = none)
    (hexec : o.run input own sh = (b, own', sh')) (hghost : Ghost cfg lim o own sh b v v')
    (hlim : lim.idleBoots)
    : ∀ node, own'.misc.excludes node → own'.sdoActive node = none := by
  intro node hexcludes
  have hslots (ho : o.keepsSlots) : own'.sdoActive = own.sdoActive ∧ own'.misc = own.misc := by
    have hsame := run_slots input own sh ho
    simp only [hexec] at hsame
    exact ⟨hsame.1, hsame.2.2.2⟩
  cases hghost with
  | @activate r _ _ _ _ m hplace hactive hnot =>
    cases hexec
    by_cases heq : node = m
    . subst heq
      exact absurd hexcludes hnot
    . simpa [heq] using h node hexcludes
  | @release r _ _ _ _ m =>
    cases hexec
    by_cases heq : node = m
    . simp [heq]
    . simpa [heq] using h node hexcludes
  | @clearActive _ _ _ _ m hactive =>
    cases hexec
    by_cases heq : node = m
    . simp [heq]
    . simpa [heq] using h node hexcludes
  | linkFirst | popPromoted | popCanceled | detach | setBusy | setCsdo =>
    cases hexec
    exact h node hexcludes
  | setMisc hstep =>
    cases hexec
    exact (hstep.exclusive hlim node hexcludes).elim (h node) id
  | look hlooks =>
    obtain ⟨rfl, rfl⟩ := run_looks hexec hlooks
    exact h node hexcludes
  | _ =>
    obtain ⟨hactive, hmisc⟩ := hslots rfl
    rw [hactive]
    exact h node (hmisc ▸ hexcludes)

omit [DecidableEq κ] [Fintype ι] [Fintype κ] in
/-- The bookkeeping changes only in steps that respect it. -/
theorem exec_misc (hexec : o.run input own sh = (b, own', sh'))
    (hghost : Ghost cfg lim o own sh b v v')
    : own'.misc = own.misc ∨ MiscStep lim own own'.misc := by
  have hkeeps (ho : o.keepsSlots) : own'.misc = own.misc := by
    have hsame := run_slots input own sh ho
    simp only [hexec] at hsame
    exact hsame.2.2.2
  cases hghost with
  | setMisc hstep =>
    cases hexec
    exact .inr hstep
  | activate | release | clearActive | linkFirst | popPromoted | popCanceled | detach | setBusy
  | setCsdo =>
    cases hexec
    exact .inl rfl
  | look hlooks =>
    obtain ⟨rfl, rfl⟩ := run_looks hexec hlooks
    exact .inl rfl
  | _ => exact .inl (hkeeps rfl)

theorem exec (h : Inv cfg lim own sh v) (hexec : o.run input own sh = (b, own', sh'))
    (hghost : Ghost cfg lim o own sh b v v') : Inv cfg lim own' sh' v' where
  requests := h.requests.exec hexec hghost h.lists (h.sent.posted h.commands) h.empty_queue
  lists := h.lists.exec hexec hghost (fun r node hplace => (h.requests r).next_eq node hplace)
    (fun _ _ hentry hcommand => h.away_of_queued hentry hcommand)
  commands := h.commands.exec hexec hghost
  sent := h.sent.exec hexec hghost
  idents := h.idents.exec hexec hghost h.lists
  pins := h.pins.exec hexec hghost h.requests h.lists h.commands
  order := h.order.exec hexec hghost h.lists h.requests
  wake := h.wake.exec hexec hghost h.requests h.lists h.empty_queue
  exclusive := fun hlim => exec_exclusive (h.exclusive hlim) hexec hghost hlim
  single := fun hlim => (exec_misc hexec hghost).elim (fun heq => heq ▸ h.single hlim)
    fun hstep => hstep.single hlim (h.single hlim)
  gate := by
    obtain heq | hstep := exec_misc hexec hghost
    . rw [heq]
      exact h.gate
    . obtain ⟨later, hlog, hgate⟩ := hstep.gate
      rw [hlog, hgate, h.gate, Gate.run_append]

end Inv

/-- The program logic for the code of the owner. -/
def logic (ι κ : Type) [DecidableEq ι] [DecidableEq κ] [Fintype ι] [Fintype κ] (cfg : BuildConfig)
    (lim : Limits) : Logic (restricted ι κ cfg lim) (View ι) where
  inv := Inv cfg lim
  ghost := Ghost cfg lim
  inv_env := fun h henv => h.env henv.1 henv.2
  inv_exec := fun h hexec hghost => hexec.1.elim fun _ hrun => h.exec hrun hghost

end LelyRtt
