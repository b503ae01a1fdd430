import LelyRtt.Protocol.Trace

/-!
This module contains the results about the event of the owner: a command in the queue of an owner
that waits has its event outstanding, and what the owner was woken up for is dispatched before it
waits again.
-/

namespace LelyRtt

open Conc

variable {ι κ : Type} [DecidableEq ι] [DecidableEq κ] [Fintype ι] [Fintype κ]
  {cfg : BuildConfig} {lim : Limits} {own own' : Own ι κ} {sh sh' : Shared ι κ} {v v' : View ι}
  {c c' : Cfg ι κ} {taken : List (TakenBy × Entry ι κ)} {sent : List (Entry ι κ)}

/-- What the view says about an owner that waits for an event. -/
theorem old_of_receive (h : (logic ι κ cfg lim).GoodAt c v) (hreceive : c.next? = some .receive)
    : v.phase.closing = false ∧ v.phase.target = none ∧ v.phase.old = 0
      ∧ ∀ node, node ≠ 0 → node ≤ numNodes → v.Quiet c.own node := by
  have hrun : (Op.receive : Op ι κ).run {} c.own c.sh = Op.receive.run {} c.own c.sh := rfl
  obtain ⟨v', hghost⟩ := ghost_of_next h hreceive hrun trivial
  cases hghost with
  | look hlooks => simp [Op.looks] at hlooks
  | receive _ hclosing htarget hold hquiet => exact ⟨hclosing, htarget, hold, hquiet⟩

/--
The run since the owner consumed its event, when it had taken out `taken` and `sent` had been sent:
the view still counts what was in the queue then.
-/
structure Since (taken : List (TakenBy × Entry ι κ)) (sent : List (Entry ι κ)) (own : Own ι κ)
    (sh : Shared ι κ) (v : View ι) : Prop where
  sent_extends : sent <+: sh.sent
  taken_extends : taken <+: own.taken
  length : sent.length ≤ own.taken.length + v.phase.old
  drained : ∀ e ∈ own.taken.drop taken.length, e.1 = .drain → v.phase.closing = true

omit [Fintype ι] [Fintype κ] in
theorem EnvMove.sent_extends (h : EnvMove cfg sh sh') : sh.sent <+: sh'.sent := by
  cases h with
  | @app eff pc request evs r hm heq =>
    subst heq
    obtain ⟨pushed, _, hsent, _⟩ := hm.commandStep.queue
    exact ⟨pushed, hsent.symm⟩
  | poster i hstep =>
    obtain ⟨pushed, _, hsent, _⟩ := hstep.queue
    exact ⟨pushed, hsent.symm⟩
  | other hposts => rw [hposts.sent]

namespace Since

omit [DecidableEq ι] [DecidableEq κ] [Fintype ι] [Fintype κ] in
/-- The owner takes a command out of the queue. -/
theorem take (h : Since taken sent own sh v) {by_ : TakenBy} {entry : Entry ι κ}
    (htaken : own'.taken = own.taken ++ [(by_, entry)]) (hsent : sh'.sent = sh.sent)
    (hold : v'.phase.old = v.phase.old - 1) (hclosing : v'.phase.closing = v.phase.closing)
    (hby : by_ = .drain → v.phase.closing = true) : Since taken sent own' sh' v' where
  sent_extends := hsent ▸ h.sent_extends
  taken_extends := by
    rw [htaken]
    exact h.taken_extends.trans (List.prefix_append _ _)
  length := by
    have hlength := h.length
    rw [htaken, hold]
    simp only [List.length_append, List.length_singleton]
    omega
  drained := by
    intro e he
    rw [hclosing]
    rw [htaken, List.drop_append_of_le_length h.taken_extends.length_le, List.mem_append,
      List.mem_singleton] at he
    obtain he | rfl := he
    . exact h.drained e he
    . exact hby

theorem exec {o : Op ι κ} {input : Input} {b : o.Res} (h : Since taken sent own sh v)
    (hinv : Inv cfg lim own sh v) (hexec : o.run input own sh = (b, own', sh'))
    (hghost : Ghost cfg lim o own sh b v v') : Since taken sent own' sh' v' := by
  have hsent := (run_threads (o := o) input own sh).2.2.1
  rw [hexec] at hsent
  have hkeeps (htaken : own'.taken = own.taken) (hold : v'.phase.old = v.phase.old)
      : Since taken sent own' sh' v' := by
    constructor
    . exact hsent ▸ h.sent_extends
    . exact htaken ▸ h.taken_extends
    . rw [htaken, hold]
      exact h.length
    . rw [htaken]
      exact fun e he hby => hghost.closing (h.drained e he hby)
  have htaken (ho : o.keepsCommands) : own'.taken = own.taken := by
    have htaken := (run_commands input own sh ho).1
    rwa [hexec] at htaken
  cases hghost with
  | receiveSdo _ _ _ hby | receiveCancel _ hby | receiveOther _ _ hby =>
    obtain ⟨entry, rest, _, _, rfl, rfl⟩ := run_mqReceive_some hexec
    exact h.take rfl rfl rfl rfl hby
  | receiveNone | emptyQueue =>
    obtain ⟨_, rfl, rfl⟩ := run_mqReceive_none hexec
    exact hkeeps rfl rfl
  | create | delete | latch =>
    cases hexec
    exact hkeeps rfl rfl
  | receive =>
    cases hexec
    refine { h with length := ?_ }
    have hlength := h.sent_extends.length_le
    rw [← hinv.commands.taken_eq] at hlength
    simpa using hlength
  | look hlooks =>
    obtain ⟨rfl, rfl⟩ := run_looks hexec hlooks
    exact hkeeps rfl rfl
  | _ => exact hkeeps (htaken rfl) rfl

theorem moved (h : Since taken sent own sh v) (hinv : Inv cfg lim own sh v)
    (hmoved : Moved cfg lim own sh v own' sh' v') : Since taken sent own' sh' v' := by
  cases hmoved with
  | turn => exact h
  | env henv =>
    have hextends := (henv.move hinv.requests.possible).sent_extends
    exact { h with sent_extends := h.sent_extends.trans hextends }
  | exec hexec hghost => exact h.exec hinv hexec hghost

end Since

/-- When the owner waits again it has dispatched what it was woken up for. -/
theorem Since.dispatched {entries : List (Entry ι κ)}
    (h : Since taken (taken.map (·.2) ++ entries) own sh v) (hinv : Inv cfg lim own sh v)
    (hold : v.phase.old = 0) (hclosing : v.phase.closing = false)
    : ∃ rest, own.taken = taken ++ entries.map (.dispatch, ·) ++ rest := by
  obtain ⟨later, hlater⟩ := h.taken_extends
  have hentries : entries <+: later.map (·.2) := by
    have hextends : taken.map (·.2) ++ entries <+: own.taken.map (·.2) := by
      refine List.prefix_of_prefix_length_le h.sent_extends ?_ (by simpa [hold] using h.length)
      rw [← hinv.commands.taken_eq]
      exact List.prefix_append _ _
    rwa [← hlater, List.map_append, List.prefix_append_right_inj] at hextends
  have hby (e : TakenBy × Entry ι κ) (he : e ∈ later) : e.1 = .dispatch := by
    cases hfst : e.1 with
    | dispatch => rfl
    | drain =>
      have hnow := h.drained e (by simpa [← hlater] using he) hfst
      simp [hclosing] at hnow
  have hmap : later = (later.map (·.2)).map (.dispatch, ·) := by
    rw [List.map_map]
    conv_lhs => rw [← List.map_id later]
    apply List.map_congr_left
    intro e he
    rw [← hby e he]
    rfl
  obtain ⟨rest, hrest⟩ := hentries
  refine ⟨rest.map (.dispatch, ·), ?_⟩
  rw [← hlater, hmap, ← hrest, List.map_append, List.append_assoc]

/-- The owner consumes its event, and goes on. -/
theorem since_of_receive {input : Input} {c₁ : Cfg ι κ} (hgood : (logic ι κ cfg .none).GoodAt c v)
    (hreceive : c.next? = some .receive) (hstep : ownerStep input c = some c₁)
    (hsteps : (machine ι κ cfg).Steps c₁ c')
    : ∃ v', (logic ι κ cfg .none).GoodAt c' v'
      ∧ Since c.own.taken (c.own.taken.map (·.2) ++ c.sh.queue) c'.own c'.sh v' := by
  obtain ⟨prog, own, sh⟩ := c
  cases prog with
  | op o k =>
    cases hreceive
    cases hstep
    obtain ⟨v₁, hghost, hgood₁⟩ := hgood.ghost ⟨⟨input, rfl⟩, permits_none ..⟩
    refine steps_induction hgood₁ hsteps ?_ fun _ _ _ _ _ _ hinv h hmoved => h.moved hinv hmoved
    cases hghost with
    | look hlooks => simp [Op.looks] at hlooks
    | receive =>
      exact
        {
          sent_extends := by rw [hgood.1.commands.taken_eq]
          taken_extends := List.prefix_rfl
          length := by rw [List.length_append, List.length_map]
          drained := by
            intro e he
            rw [List.drop_length] at he
            cases he
        }
  | _ => cases hreceive

/--
No lost command wake. While the owner waits with the event bit clear, every command in the queue
belongs to a post that has yet to send the event. All commands that were in the queue when the owner
consumed its event are dispatched before it waits again, and are taken out by the drain otherwise.
-/
theorem no_lost_wake (hreach : (machine ι κ cfg).Reach (Starts cfg) c)
    (hreceive : c.next? = some .receive)
    : (c.sh.eventCommand = false → ∀ entry ∈ c.sh.queue,
        c.sh.posting entry.tid = some (entry.command, .event))
      ∧ ∀ input (c₁ c' : Cfg ι κ), ownerStep input c = some c₁ → (machine ι κ cfg).Steps c₁ c' →
        (c'.next? = some .receive → ∃ rest,
          c'.own.taken = c.own.taken ++ c.sh.queue.map (.dispatch, ·) ++ rest)
        ∧ (Point.drained.rank ≤ c'.own.point.rank → ∃ rest,
          c'.own.taken.map (·.2) = c.own.taken.map (·.2) ++ c.sh.queue ++ rest) := by
  obtain ⟨v, hgood⟩ := good_of_reach hreach
  obtain ⟨_, _, hold, _⟩ := old_of_receive hgood hreceive
  refine ⟨?_, ?_⟩
  . intro hevent entry hentry
    have hout := hgood.1.wake.outstanding entry (by rwa [hold])
    simpa [Shared.Outstanding, hevent] using hout
  . intro input c₁ c' hstep hsteps
    obtain ⟨v', hgood', hsince⟩ := since_of_receive hgood hreceive hstep hsteps
    refine ⟨?_, ?_⟩
    . intro hreceive'
      obtain ⟨hclosing, _, hold, _⟩ := old_of_receive hgood' hreceive'
      exact hsince.dispatched hgood'.1 hold hclosing
    . intro hrank
      have hqueue := (hgood'.1.commands.drained (hgood'.1.pins.point.2.1 hrank)).2
      have hsent := hgood'.1.commands.taken_eq
      rw [hqueue, List.append_nil] at hsent
      obtain ⟨rest, hrest⟩ := hsince.sent_extends
      exact ⟨rest, by rw [hsent, hrest]⟩

/-- The owner waits, and the post of an upload has put its command into the queue. -/
theorem no_lost_wake_posting
    : ∃ c : Cfg Unit Unit, (machine Unit Unit .small).Reach (Starts .small) c
      ∧ c.next? = some .receive ∧ c.sh.queue = [⟨.app (), .sdo ()⟩]
      ∧ c.sh.posting (.app ()) = some (.sdo (), .event) := by
  obtain ⟨c, hreach, hc⟩ := reach_of_runAlong (starts_blank Unit Unit .small)
    (Choice.starts ++ Choice.uploads 13 () 5)
    (fun c => c.atReceive ∧ c.sh.queue = [⟨.app (), .sdo ()⟩] ∧ c.sh.eventCommand = false)
    (by decide +kernel)
  simp only [decide_eq_true_eq] at hc
  have hreceive := Cfg.next_of_atReceive hc.1
  exact ⟨c, hreach, hreceive, hc.2.1,
    (no_lost_wake hreach hreceive).1 hc.2.2 ⟨.app (), .sdo ()⟩ (by simp [hc.2.1])⟩

end LelyRtt
