import LelyRtt.Protocol.Env

/-!
This module contains the part of the invariant about order: the requests of a node that became
active, followed by those that still wait for the node, are in the order in which their commands
were taken out of the queue.
-/

namespace LelyRtt

open Conc

variable {ι κ : Type} [DecidableEq ι]

/-- The request is on its way to the end of the FIFO of the node. -/
def Place.arriving (node : Nat) : Place → Bool
  | .fresh node' | .joining node' _ => node' = node
  | _ => false

namespace View

variable (v : View ι) {r : ι} {place : Place} (node : Nat)

/-- The request in the hand of the owner, if its place is as given. -/
def handIf (p : Place → Bool) : List ι :=
  v.hand.toList.filter fun r => p (v.place r)

/-- The requests that wait for the node, the next one first. -/
def line : List ι :=
  v.handIf (· = .claimed node) ++ (v.fifo node ++ v.handIf (·.arriving node))

theorem handIf_put (p : Place → Bool)
    : (v.put r place).handIf p = if place.inHand ∧ p place then [r] else [] := by
  unfold handIf put
  by_cases hhand : place.inHand <;> by_cases hp : p place <;> simp [hhand, hp]

omit [DecidableEq ι] in
theorem handIf_hand (hhand : v.hand = some r) (p : Place → Bool)
    : v.handIf p = if p (v.place r) then [r] else [] := by
  unfold handIf
  by_cases hp : p (v.place r) <;> simp [hhand, hp]

omit [DecidableEq ι] in
theorem handIf_rest (hhand : v.hand = none) (p : Place → Bool) : v.handIf p = [] := by
  simp [handIf, hhand]

end View

/-- The requests that were taken out of the queue. -/
def Own.takenSdo (own : Own ι κ) : List ι := own.taken.filterMap (·.2.command.sdo?)

/-- The requests of a list that address the node. -/
def Shared.ofNode (sh : Shared ι κ) (node : Nat) (l : List ι) : List ι :=
  l.filter fun r => (sh.heap r).nodeId = node

/-- The requests of the node that became active or wait for it, in the order they were taken. -/
def Order (own : Own ι κ) (sh : Shared ι κ) (v : View ι) : Prop :=
  ∀ node, (sh.ofNode node own.activated ++ v.line node).Sublist (sh.ofNode node own.takenSdo)

section

variable {cfg : BuildConfig} {lim : Limits} {o : Op ι κ} {own own' : Own ι κ}
  {sh sh' : Shared ι κ} {b : o.Res} {v v' : View ι} {r : ι} {node : Nat} {input : Input}
  {l : List ι}

theorem View.line_put (v : View ι) (r : ι) (place : Place) (node : Nat)
    : (v.put r place).line node = (if place = .claimed node then [r] else [])
        ++ (v.fifo node ++ if place.arriving node then [r] else []) := by
  unfold View.line
  rw [View.handIf_put, View.handIf_put]
  cases place <;> simp [Place.inHand, Place.arriving, View.put]

omit [DecidableEq ι] in
theorem View.line_hand {v : View ι} (hhand : v.hand = some r) (node : Nat)
    : v.line node = (if v.place r = .claimed node then [r] else [])
        ++ (v.fifo node ++ if (v.place r).arriving node then [r] else []) := by
  unfold View.line
  rw [View.handIf_hand v hhand, View.handIf_hand v hhand]
  simp

omit [DecidableEq ι] in
theorem View.line_rest {v : View ι} (hhand : v.hand = none) (node : Nat)
    : v.line node = v.fifo node := by
  unfold View.line
  rw [View.handIf_rest v hhand, View.handIf_rest v hhand]
  simp

/-- The FIFO of a node changes after the request moved. -/
theorem View.line_put_setFifo (v : View ι) (r : ι) (place : Place) (node node' : Nat) (l : List ι)
    : ((v.put r place).setFifo node' l).line node = (if place = .claimed node then [r] else [])
        ++ ((if node = node' then l else v.fifo node)
          ++ if place.arriving node then [r] else []) := by
  have hline := View.line_put v r place node
  unfold View.line at hline ⊢
  rw [View.handIf_put, View.handIf_put] at hline
  have hhandIf (p : Place → Bool)
      : ((v.put r place).setFifo node' l).handIf p = (v.put r place).handIf p := rfl
  rw [hhandIf, hhandIf, View.handIf_put, View.handIf_put]
  cases place <;> simp [Place.inHand, Place.arriving, View.setFifo, View.put, Function.update_apply]

/-- The owner never moves a request forward in a line, or into it from elsewhere. -/
theorem Ghost.line_sublist (h : Ghost cfg lim o own sh b v v') (hlists : Lists cfg own sh v)
    (hreceive : ∀ by_ r, o = .mqReceive by_ → ¬HEq b (some (.sdo r) : Option (Command ι κ)))
    (node : Nat) : (v'.line node).Sublist (v.line node) := by
  cases h with
  | receiveSdo => exact absurd HEq.rfl (hreceive _ _ rfl)
  | @loadDropped r _ _ _ m hplace | @claimDoomed r _ _ _ m hplace | @claimTeardown r _ _ _ m hplace
  | @claimFailed r _ _ _ _ _ m hplace | @claimPending r _ _ _ m hplace =>
    have hhand := hlists.hand_of_inHand (r := r) (by simp [hplace, Place.inHand])
    rw [View.line_put, View.line_hand hhand, hplace]
    simp [Place.arriving]
  | @claimActive r _ _ _ m hplace hfifo =>
    have hhand := hlists.hand_of_inHand (r := r) (by simp [hplace, Place.inHand])
    rw [View.line_put, View.line_hand hhand, hplace]
    by_cases heq : m = node
    . subst heq
      simp [Place.arriving, hfifo]
    . simp [Place.arriving, heq]
  | @linkFirst r _ _ _ _ m hplace hfifo =>
    have hhand := hlists.hand_of_inHand (r := r) (by simp [hplace, Place.inHand])
    rw [View.line_put_setFifo, View.line_hand hhand, hplace]
    by_cases heq : node = m
    . subst heq
      simp [Place.arriving, hfifo]
    . simp [Place.arriving, heq]
  | @link r _ _ _ _ m front tail hplace hfifo =>
    have hhand := hlists.hand_of_inHand (r := r) (by simp [hplace, Place.inHand])
    rw [View.line_put_setFifo, View.line_hand hhand, hplace]
    by_cases heq : node = m
    . subst heq
      simp [Place.arriving, hfifo]
    . simp [Place.arriving, heq]
  | @promote r _ _ _ m rest hrest hplace hfifo | @popCanceled r _ _ _ _ m rest hrest hplace hfifo =>
    rw [View.line_put_setFifo, View.line_rest hrest.1]
    by_cases heq : node = m
    . subst heq
      simp [Place.arriving, hfifo]
    . simp [Place.arriving, heq]
  | @unlink r prev _ _ _ _ m front rest hrest hplace hfifo =>
    rw [View.line_put_setFifo, View.line_rest hrest.1]
    by_cases heq : node = m
    . subst heq
      simp [Place.arriving, hfifo]
    . simp [Place.arriving, heq]
  | @popPromoted r _ _ _ _ m rest hplace hfifo =>
    have hhand := hlists.hand_of_inHand (r := r) (by simp [hplace, Place.inHand])
    rw [View.line_put_setFifo, View.line_hand hhand, hplace]
    by_cases heq : node = m
    . subst heq
      simp [Place.arriving, hfifo]
    . have hne : ¬m = node := fun h => heq h.symm
      simp [Place.arriving, heq, hne]
  | @detach _ _ _ _ m hrest =>
    rw [View.line_rest hrest.1, View.line_rest (by exact hrest.1)]
    simp only [View.detach, View.setFifo, Function.update_apply]
    split <;> simp
  | @takeDetached r _ _ _ _ rest hhand =>
    have hline : ({ v.put r (.ending .pend false false) with detached := rest } : View ι).line node
        = (v.put r (.ending .pend false false)).line node := rfl
    rw [hline, View.line_put, View.line_rest hhand]
    simp [Place.arriving]
  | @release r _ _ _ _ m hhand hplace =>
    rw [View.line_put, View.line_rest hhand]
    simp [Place.arriving]
  | @clearJoining r _ _ _ _ m cleared hplace | @activate r _ _ _ _ m hplace
  | @hold r _ _ _ _ kind hplace | @unhold r _ _ _ _ kind hplace | @publish r _ _ _ _ kind hplace
  | @send r _ _ _ _ hplace | @finish r _ _ _ _ hplace | @stage r _ _ _ kind _ hplace =>
    have hhand := hlists.hand_of_inHand (r := r) (by simp [hplace, Place.inHand])
    rw [View.line_put, View.line_hand hhand, hplace]
    simp [Place.arriving]
  | @setResult r _ _ _ _ _ _ _ kind hplace =>
    have hhand : v.hand = some r := by
      apply hlists.hand_of_inHand
      revert hplace
      cases v.place r <;> simp [Place.ending?, Place.inHand]
    rw [View.line_put, View.line_hand hhand]
    simp [Place.arriving]
  | _ => exact List.Sublist.refl _

omit [DecidableEq ι] in
theorem Shared.ofNode_congr (hnode : ∀ r, r ∈ l → (sh'.heap r).nodeId = (sh.heap r).nodeId)
    : sh'.ofNode node l = sh.ofNode node l := by
  apply List.filter_congr
  intro r hr
  rw [hnode r hr]

namespace Order

omit [DecidableEq ι] in
theorem mem_takenSdo (h : Order own sh v) (hr : r ∈ own.activated) : r ∈ own.takenSdo := by
  have hmem : r ∈ sh.ofNode (sh.heap r).nodeId own.activated := by simp [Shared.ofNode, hr]
  have hsub := (h (sh.heap r).nodeId).subset (List.mem_append_left _ hmem)
  simp only [Shared.ofNode, List.mem_filter] at hsub
  exact hsub.1

omit [DecidableEq ι] in
/-- A step that activates no request and takes none out of the queue. -/
theorem frame (h : Order own sh v) (hline : ∀ node, (v'.line node).Sublist (v.line node))
    (hnode : ∀ r, (sh'.heap r).nodeId = (sh.heap r).nodeId)
    (hactivated : own'.activated = own.activated) (htaken : own'.takenSdo = own.takenSdo)
    : Order own' sh' v' := by
  intro node
  rw [Shared.ofNode_congr fun r _ => hnode r, Shared.ofNode_congr fun r _ => hnode r, hactivated,
    htaken]
  exact ((hline node).append_left _).trans (h node)

theorem activate (h : Order own sh v) (hlists : Lists cfg own sh v)
    (hrequests : Requests own sh v) {m : Nat} (hplace : v.place r = .claimed m)
    (hactivated : own'.activated = own.activated ++ [r]) (htaken : own'.takenSdo = own.takenSdo)
    : Order own' sh (v.put r (.active m)) := by
  have hhand := hlists.hand_of_inHand (r := r) (by simp [hplace, Place.inHand])
  have hself : (sh.heap r).nodeId = m := (hrequests r).node_eq m (by simp [hplace, Place.node?])
  intro node
  have hold := h node
  rw [View.line_hand hhand, hplace] at hold
  rw [View.line_put, hactivated, htaken]
  by_cases heq : m = node
  . subst heq
    simpa [Shared.ofNode, Place.arriving, hself] using hold
  . simpa [Shared.ofNode, Place.arriving, hself, heq] using hold

omit [DecidableEq ι] in
theorem receive (h : Order own sh v) (hhand : v.hand = none) {by_ : TakenBy} {entry : Entry ι κ}
    (hcommand : entry.command = .sdo r) (hfifo : v'.fifo = v.fifo)
    (hplace : v'.place r = .fresh (sh.heap r).nodeId) (hhand' : v'.hand = some r)
    {rest : List (Entry ι κ)}
    : Order { own with taken := own.taken ++ [(by_, entry)] } { sh with commandMq := some rest }
        v' := by
  intro node
  have hold := h node
  rw [View.line_rest hhand] at hold
  rw [View.line_hand hhand', hplace, hfifo]
  have htaken : Own.takenSdo { own with taken := own.taken ++ [(by_, entry)] }
      = own.takenSdo ++ [r] := by
    simp [Own.takenSdo, hcommand, Command.sdo?]
  rw [htaken]
  by_cases heq : (sh.heap r).nodeId = node
  . simpa [Shared.ofNode, Place.arriving, heq] using hold.append (List.Sublist.refl [r])
  . simpa [Shared.ofNode, Place.arriving, heq] using hold

theorem exec (h : Order own sh v) (hexec : o.run input own sh = (b, own', sh'))
    (hghost : Ghost cfg lim o own sh b v v') (hlists : Lists cfg own sh v)
    (hrequests : Requests own sh v) : Order own' sh' v' := by
  have hnode (r : ι) : (sh'.heap r).nodeId = (sh.heap r).nodeId := by
    have hident := (run_ident (o := o) input own sh r).2.1
    rwa [hexec] at hident
  have hline := hghost.line_sublist hlists
  have htaken (ho : o.keepsCommands) : own'.takenSdo = own.takenSdo := by
    have hsame := (run_commands input own sh ho).1
    simp only [hexec] at hsame
    simp only [Own.takenSdo, hsame]
  have hactivated (ho : ∀ node request, o ≠ .setActive node request)
      : own'.activated = own.activated := by
    have hsame := run_activated input own sh ho
    simpa only [hexec] using hsame
  cases hghost with
  | activate hplace =>
    cases hexec
    exact h.activate hlists hrequests hplace rfl rfl
  | release | clearActive =>
    cases hexec
    exact h.frame (hline (by rintro _ _ ⟨⟩)) hnode (List.append_nil _) rfl
  | receiveSdo hrest =>
    obtain ⟨entry, rest, _, hcommand, rfl, rfl⟩ := run_mqReceive_some hexec
    refine h.receive hrest.1 hcommand ?_ ?_ ?_
    . rfl
    . simp [View.put]
    . rfl
  | receiveNone | emptyQueue =>
    obtain ⟨_, rfl, rfl⟩ := run_mqReceive_none hexec
    exact h.frame (hline (by rintro _ _ _ ⟨⟩)) hnode rfl rfl
  | receiveCancel =>
    obtain ⟨entry, rest, _, hcommand, rfl, rfl⟩ := run_mqReceive_some hexec
    exact h.frame (hline (by rintro _ _ _ ⟨⟩)) hnode rfl
      (by simp [Own.takenSdo, hcommand, Command.sdo?])
  | @receiveOther _ command _ _ _ hsdo =>
    obtain ⟨entry, rest, _, hcommand, rfl, rfl⟩ := run_mqReceive_some hexec
    refine h.frame (hline ?_) hnode rfl ?_
    . rintro _ r _ hb
      exact hsdo r (Option.some_inj.mp (eq_of_heq hb))
    . cases command <;> simp_all [Own.takenSdo, Command.sdo?]
  | create | delete | latch =>
    cases hexec
    exact h.frame (hline (by simp)) hnode rfl rfl
  | look hlooks =>
    obtain ⟨rfl, rfl⟩ := run_looks hexec hlooks
    exact h
  | _ => exact h.frame (hline (by simp)) hnode (hactivated (by simp)) (htaken rfl)

omit [DecidableEq ι] in
theorem same (h : Order own sh v) (hsame : SameRequests sh sh') : Order own sh' v := by
  apply h.frame (fun _ => List.Sublist.refl _) _ rfl rfl
  intro r
  obtain ⟨bit, hheap⟩ := hsame.heap r
  rw [hheap]

/-- A request that was sent keeps its node. -/
theorem app [DecidableEq κ] {eff : Effect ι κ} {pc : AppPc} {request : Request ι}
    {evs : List ReqEvent} (h : Order own sh v) (hrequests : Requests own sh v) (hsent : Sent sh)
    (htaken : ∀ r ∈ own.takenSdo, r ∈ sh.sent.filterMap (·.command.sdo?))
    (hm : AppMove cfg r sh (sh.app r) (sh.heap r) eff pc request evs)
    : Order own ((eff.apply cfg r sh).settle r pc request evs) v := by
  obtain ⟨hheap, _⟩ := Effect.apply_same cfg r sh eff
  have hnode (r' : ι) (hr' : r' ∈ own.takenSdo)
      : (((eff.apply cfg r sh).settle r pc request evs).heap r').nodeId = (sh.heap r').nodeId := by
    by_cases heq : r' = r
    . subst heq
      have hnew := (hsent.published r' (htaken r' hr')).1
      have hadmits := (hrequests r').pc_admits
      rw [Shared.settle_heap_self]
      generalize sh.app r' = old at *
      cases hm <;> simp_all [AppPc.admits]
    . simp [Shared.settle, hheap, heq]
  intro node
  rw [Shared.ofNode_congr fun r hr => hnode r (h.mem_takenSdo hr), Shared.ofNode_congr hnode]
  exact h node

end Order

end

end LelyRtt
