import LelyRtt.Clock.Bridge

/-!
This module contains the proof that no timer of the CAN network is forgotten on its way to the one-shot
timer of RT-Thread and back.
-/

namespace LelyRtt.Clock

namespace Bridge

variable {ι : Type} {hz : Nat} {s s' : Bridge ι} {tp : TimeSpec}

/-! ### The wait of the network -/

theorem Waits.above (h : s.Waits hz) (net : CanNet ι) (next : TimeSpec) (nextSubmitted : Bool)
    : Waits hz { s with net := net, next := next, nextSubmitted := nextSubmitted } :=
  ⟨⟨h.valid, h.expiry, h.submitted, h.idle, h.waiting, h.start, h.clock⟩, h.user, h.armed⟩

/-- Where `wait_next` is after the network has handed on the time `next`. -/
def nextPlace (place : WaitPlace) (next : TimeSpec) : WaitPlace :=
  if place.isQueued then .queued next else place

theorem nextPlace_nextPlace (place : WaitPlace) (next next' : TimeSpec)
    : nextPlace (nextPlace place next) next' = nextPlace place next' := by
  cases place <;> rfl

theorem nextPlace_eq_idle_iff {place : WaitPlace} {next : TimeSpec}
    : nextPlace place next = .idle ↔ place = .idle := by
  cases place with
  | idle => exact Iff.rfl
  | queued value => exact ⟨fun h => (by cases h), fun h => (by cases h)⟩
  | posted => exact Iff.rfl

/-- `wait_next` is submitted, for the next time if it is in the timer queue. -/
structure Handed (hz : Nat) (s : Bridge ι) : Prop extends Waits hz s where
  nextSubmitted : s.nextSubmitted = true
  queued : ∀ value, s.places .next = .queued value → value = s.next

/-- What the network hands on arrives at its wait. -/
structure Hands (hz : Nat) (s s' : Bridge ι) (tp : TimeSpec) : Prop where
  handed : s'.Handed hz
  next : s'.next = tp
  net : s'.net = s.net
  now : s'.now = s.now
  place : s'.places .next = nextPlace (s.places .next) tp

theorem Handed.place (h : s.Handed hz) : s.places .next = nextPlace (s.places .next) s.next := by
  cases hplace : s.places .next with
  | idle => rfl
  | queued value =>
    rw [h.queued value hplace]
    rfl
  | posted => rfl

theorem Handed.nextFunc (hhz : 1 ≤ hz ∧ hz ≤ 1000000000) (h : s.Handed hz) (hvalid : Valid tp)
    : s.Hands hz (s.nextFunc hz tp) tp := by
  unfold Bridge.nextFunc
  by_cases hsame : timespecCmp s.next tp = 0
  . rw [if_pos hsame]
    obtain rfl := (timespecCmp_eq_iff _ _).1 hsame
    exact ⟨h, rfl, rfl, rfl, h.place⟩
  . rw [if_neg hsame]
    dsimp only
    rw [h.nextSubmitted, if_neg (show ¬(!true) = true from Bool.false_ne_true)]
    obtain ⟨hwaits, hbelow, hplaces, hidle⟩ := (h.above s.net tp true).abortWait .next
    have haborted : (abortWait { s with next := tp, nextSubmitted := true } .next).1
        = (s.places .next).isQueued := rfl
    dsimp only at hplaces hidle
    generalize Bridge.abortWait { s with next := tp, nextSubmitted := true } .next = r
      at hwaits hbelow hplaces hidle haborted ⊢
    by_cases hqueued : (s.places .next).isQueued = true
    . rw [if_pos (haborted.trans hqueued)]
      have hne : s.queuePlace ≠ .idle := by
        intro hplace
        obtain ⟨value, hvalue⟩ := Option.isSome_iff_exists.1 hqueued
        exact (h.idle hplace).2 _ _ (value_eq_some_iff.1 hvalue)
      have hwaits : Waits hz { r.2 with nextSubmitted := true } := hwaits.above _ _ _
      obtain ⟨hwaits', hbelow', hplaces'⟩ := hwaits.submitWait hhz .next hvalid
        fun hplace => absurd (hidle.1 hplace) hne
      have hplace : (r.2.resubmit hz tp).places .next = .queued tp := by
        unfold resubmit
        rw [hplaces', Function.update_self]
      have hnext := hbelow'.next.trans hbelow.next
      refine ⟨⟨hwaits', hbelow'.nextSubmitted, ?_⟩, hnext, hbelow'.net.trans hbelow.net,
        hbelow'.now.trans hbelow.now, ?_⟩
      . intro value hvalue
        exact (WaitPlace.queued.inj (hplace.symm.trans hvalue)).symm.trans hnext.symm
      . rw [hplace, nextPlace, if_pos hqueued]
    . rw [if_neg (haborted ▸ hqueued)]
      rw [if_neg hqueued] at hplaces
      refine ⟨⟨hwaits, hbelow.nextSubmitted, ?_⟩, hbelow.next, hbelow.net, hbelow.now, ?_⟩
      . intro value hvalue
        rw [hplaces] at hvalue
        exact absurd (Option.isSome_iff_exists.2 ⟨value, value_eq_some_iff.2 hvalue⟩) hqueued
      . rw [hplaces, nextPlace, if_neg hqueued]

/-- The network hands on its first time while its wait is nowhere. -/
theorem Waits.nextFunc (hhz : 1 ≤ hz ∧ hz ≤ 1000000000) (h : s.Waits hz)
    (hsubmitted : s.nextSubmitted = false) (hle : s.next ≤ s.now) (hvalid : Valid tp) (hlater : s.now < tp)
    : (s.nextFunc hz tp).Handed hz ∧ (s.nextFunc hz tp).next = tp ∧ (s.nextFunc hz tp).net = s.net
      ∧ (s.nextFunc hz tp).now = s.now ∧ (s.nextFunc hz tp).places .next = .queued tp := by
  have hne : timespecCmp s.next tp ≠ 0 := mt (timespecCmp_eq_iff _ _).1 (hle.trans_lt hlater).ne
  unfold Bridge.nextFunc
  rw [if_neg hne]
  dsimp only
  rw [hsubmitted, if_pos (show (!false) = true from rfl)]
  obtain ⟨hwaits, hbelow, hplaces⟩ := (h.above s.net tp true).submitWait hhz .next hvalid
    fun _ => hlater
  have hplace := congrFun hplaces .next
  rw [Function.update_self] at hplace
  refine ⟨⟨hwaits, hbelow.nextSubmitted, ?_⟩, hbelow.next, hbelow.net, hbelow.now, hplace⟩
  intro value hvalue
  exact (WaitPlace.queued.inj (hplace.symm.trans hvalue)).symm.trans hbelow.next.symm

theorem Handed.foldl (hhz : 1 ≤ hz ∧ hz ≤ 1000000000) (h : s.Handed hz) {tps : List TimeSpec}
    (hvalid : ∀ tp ∈ tps, Valid tp)
    : s.Hands hz (tps.foldl (Bridge.nextFunc hz) s) (tps.getLastD s.next) := by
  induction tps generalizing s with
  | nil => exact ⟨h, rfl, rfl, rfl, h.place⟩
  | cons tp tps ih =>
    have hstep := h.nextFunc hhz (hvalid tp List.mem_cons_self)
    have hrest := ih hstep.handed fun tp' htp' => hvalid tp' (List.mem_cons_of_mem _ htp')
    rw [hstep.next] at hrest
    refine ⟨hrest.handed, ?_, hrest.net.trans hstep.net, hrest.now.trans hstep.now, ?_⟩
    . rw [List.getLastD_cons]
      exact hrest.next
    . rw [List.getLastD_cons]
      have hplace := hrest.place
      rw [hstep.place, nextPlace_nextPlace] at hplace
      exact hplace

end Bridge

/-! ### What the network hands on -/

namespace CanNet

variable {ι σ : Type} [DecidableEq ι] {net net' : CanNet ι} {id : ι}

/-- The network has handed on some times, the last of which is the next one. -/
def Extends (net net' : CanNet ι) : Prop :=
  ∃ tps, net'.reported = net.reported ++ tps ∧ net'.next = tps.getLastD net.next

omit [DecidableEq ι] in
theorem Extends.of_eq (hreported : net'.reported = net.reported) (hnext : net'.next = net.next)
    : net.Extends net' :=
  ⟨[], hreported.trans (List.append_nil _).symm, hnext⟩

omit [DecidableEq ι] in
theorem Extends.trans {net'' : CanNet ι} (h : net.Extends net') (h' : net'.Extends net'')
    : net.Extends net'' := by
  obtain ⟨tps, hreported, hnext⟩ := h
  obtain ⟨tps', hreported', hnext'⟩ := h'
  refine ⟨tps ++ tps', ?_, ?_⟩
  . rw [hreported', hreported, List.append_assoc]
  . rw [hnext', hnext]
    simp only [List.getLastD_eq_getLast?, List.getLast?_append]
    cases tps'.getLast? <;> rfl

omit [DecidableEq ι] in
theorem setNext_extends : net.Extends net.setNext := by
  unfold setNext
  cases net.heap.root with
  | none => exact .of_eq rfl rfl
  | some root => exact ⟨[(net.timers root.id).start], rfl, rfl⟩

theorem timerStop_extends : net.Extends (net.timerStop id) := by
  unfold timerStop
  split
  . have hout : net.Extends (net.unregister id) := .of_eq rfl rfl
    exact hout.trans setNext_extends
  . exact .of_eq rfl rfl

theorem timerStart_extends {start interval : Option TimeSpec}
    : net.Extends (net.timerStart id start interval) := by
  unfold timerStart
  dsimp only
  split
  . exact timerStop_extends
  . exact timerStop_extends.trans ((Extends.of_eq rfl rfl).trans setNext_extends)

theorem apply_extends (op : TimerOp ι) : net.Extends (net.apply op) := by
  cases op with
  | setFunc id func => exact .of_eq rfl rfl
  | start id start interval => exact timerStart_extends
  | stop id => exact timerStop_extends
  | timeout id timeout =>
    unfold apply timerTimeout
    dsimp only
    split
    . exact timerStop_extends
    . exact timerStart_extends

theorem foldl_extends (ops : List (TimerOp ι)) : net.Extends (ops.foldl apply net) := by
  induction ops generalizing net with
  | nil => exact .of_eq rfl rfl
  | cons op ops ih => exact (apply_extends op).trans ih

theorem requeue_extends : net.Extends (net.requeue id) := by
  unfold requeue
  dsimp only
  split <;> exact .of_eq rfl rfl

theorem trigger_extends {func : TimerFunc ι σ} {st : σ} : net.Extends (net.trigger func st id).2.1 := by
  unfold trigger
  dsimp only
  split
  . exact requeue_extends.trans (foldl_extends _)
  . exact requeue_extends

theorem setTimeLoop_extends {func : TimerFunc ι σ} {fuel : Nat} {st : σ} {pass : Pass ι σ}
    (hpass : net.setTimeLoop func fuel st = some pass)
    : net.Extends pass.net ∧ pass.net.time = net.time := by
  induction fuel generalizing st net pass with
  | zero => cases hpass
  | succ fuel ih =>
    obtain ⟨rfl, -⟩ | ⟨root, rest, -, -, hrest, -, hnet, -⟩ := setTimeLoop_cases hpass
    . exact ⟨.of_eq rfl rfl, rfl⟩
    . obtain ⟨hextends, htime⟩ := ih hrest
      rw [hnet]
      exact ⟨trigger_extends.trans hextends, htime.trans trigger_time⟩

theorem setTime_extends {func : TimerFunc ι σ} {fuel : Nat} {st : σ} {tp : TimeSpec} {pass : Pass ι σ}
    (hpass : net.setTime func fuel st tp = some pass) : net.Extends pass.net ∧ pass.net.time = tp := by
  obtain ⟨rest, hrest, rfl⟩ := Option.map_eq_some_iff.1 hpass
  obtain ⟨hextends, htime⟩ := setTimeLoop_extends hrest
  have hnow : net.Extends { net with time := tp } := .of_eq rfl rfl
  exact ⟨(hnow.trans hextends).trans setNext_extends, setNext_time.trans htime⟩

/-- A network without timers has nothing to hand on. -/
theorem setTime_quiet {func : TimerFunc ι σ} {fuel : Nat} {st : σ} {tp : TimeSpec} {pass : Pass ι σ}
    (h : net.Ok) (hnone : ∀ id, (net.timers id).registered = false)
    (hpass : net.setTime func fuel st tp = some pass) : pass.net = { net with time := tp } := by
  have hroot : net.heap.root = none := by
    cases hroot : net.heap.root with
    | none => rfl
    | some root => cases (h.first hroot).1.symm.trans (hnone root.id)
  obtain ⟨rest, hrest, rfl⟩ := Option.map_eq_some_iff.1 hpass
  have hempty : { net with time := tp }.setNext = { net with time := tp } := by
    unfold setNext
    rw [hroot]
  cases fuel with
  | zero => cases hrest
  | succ fuel =>
    obtain ⟨rfl, -⟩ | ⟨root, -, hsome, -⟩ := setTimeLoop_cases hrest
    . exact hempty
    . cases hroot.symm.trans hsome

/-- A network without timers that hands on nothing has none. -/
theorem apply_quiet (h : net.Ok) (hnone : ∀ id, (net.timers id).registered = false) (op : TimerOp ι)
    (hreported : (net.apply op).reported = net.reported) (id : ι)
    : ((net.apply op).timers id).registered = false := by
  have hstop (id' : ι) : net.timerStop id' = net := by
    unfold timerStop
    rw [hnone id', if_neg Bool.false_ne_true]
  have hstart (id' : ι) (start interval : Option TimeSpec)
      (hreported : (net.timerStart id' start interval).reported = net.reported)
      : ((net.timerStart id' start interval).timers id).registered = false := by
    unfold timerStart at hreported ⊢
    dsimp only at hreported ⊢
    rw [hstop] at hreported ⊢
    split at hreported
    next hboth =>
      rw [if_pos hboth]
      exact hnone id
    next hboth =>
      have hregister (start interval : TimeSpec)
          : (net.register id' start interval).setNext.reported ≠ net.reported := by
        have hok := h.register (hnone id') start interval
        have hreg : ((net.register id' start interval).timers id').registered = true := by
          rw [register_timers_self]
        unfold setNext
        cases hroot : (net.register id' start interval).heap.root with
        | none => exact absurd hreg (hok.not_registered hroot id')
        | some root => exact fun heq => List.cons_ne_nil _ _ (List.append_right_eq_self.1 heq)
      exact absurd hreported (hregister _ _)
  cases op with
  | setFunc id' func => exact timerSetFunc_registered.trans (hnone id)
  | start id' start interval => exact hstart id' start interval hreported
  | stop id' =>
    change ((net.timerStop id').timers id).registered = false
    rw [hstop]
    exact hnone id
  | timeout id' timeout =>
    unfold apply timerTimeout at hreported ⊢
    dsimp only at hreported ⊢
    split
    . rw [hstop]
      exact hnone id
    next htimeout =>
      rw [if_neg htimeout] at hreported
      exact hstart id' _ _ hreported

end CanNet

namespace Bridge

variable {ι : Type} [DecidableEq ι] {hz : Nat} {s s' : Bridge ι}

/-! ### The invariant -/

/--
The network waits for the first of its timers: its wait is in the timer queue with the next time, or
posted, or there is no timer at all.
-/
structure Inv (hz : Nat) (s : Bridge ι) : Prop extends Waits hz s where
  ok : s.net.Ok
  told : s.net.Told
  told_next : s.next = s.net.next
  valid_next : zero < s.net.next → Valid s.net.next
  nextSubmitted : s.nextSubmitted = true ↔ s.places .next ≠ .idle
  queued : ∀ value, s.places .next = .queued value → value = s.next
  still : s.places .next = .idle → (∀ id, (s.net.timers id).registered = false) ∧ s.next ≤ s.now

omit [DecidableEq ι] in
theorem Inv.handed (h : s.Inv hz) (hplace : s.places .next ≠ .idle) : s.Handed hz :=
  ⟨h.toWaits, h.nextSubmitted.2 hplace, h.queued⟩

omit [DecidableEq ι] in
/-- The layers below the network do something that leaves `wait_next` alone, or posts it. -/
theorem Inv.below (h : s.Inv hz) (hwaits : s'.Waits hz) (hnet : s'.net = s.net) (hnext : s'.next = s.next)
    (hsubmitted : s'.nextSubmitted = s.nextSubmitted) (hnow : s.now ≤ s'.now)
    (hidle : s'.places .next = .idle ↔ s.places .next = .idle)
    (hqueued : ∀ value, s'.places .next = .queued value → s.places .next = .queued value)
    : s'.Inv hz := by
  refine ⟨hwaits, ?_, ?_, ?_, ?_, ?_, ?_, ?_⟩
  . rw [hnet]
    exact h.ok
  . rw [hnet]
    exact h.told
  . rw [hnet, hnext]
    exact h.told_next
  . rw [hnet]
    exact h.valid_next
  . rw [hsubmitted, h.nextSubmitted]
    exact not_congr hidle.symm
  . intro value hvalue
    rw [hnext]
    exact h.queued value (hqueued value hvalue)
  . intro hplace
    rw [hnet, hnext]
    obtain ⟨hnone, hle⟩ := h.still (hidle.1 hplace)
    exact ⟨hnone, hle.trans hnow⟩

omit [DecidableEq ι] in
theorem valid_next_of_extends {net net' : CanNet ι} (hextends : net.Extends net')
    (hnext : zero < net.next → Valid net.next)
    (hvalid : ∀ tp ∈ net'.reported.drop net.reported.length, Valid tp) (hpos : zero < net'.next)
    : Valid net'.next := by
  obtain ⟨tps, hreported, hlast⟩ := hextends
  rw [hreported, List.drop_left] at hvalid
  rw [hlast] at hpos ⊢
  have hlast : tps.getLastD net.next ∈ net.next :: tps := List.getLastD_mem_cons
  obtain heq | hmem := List.mem_cons.1 hlast
  . rw [heq] at hpos ⊢
    exact hnext hpos
  . exact hvalid _ hmem

omit [DecidableEq ι] in
/-- The network hands on what it has to while its wait is submitted. -/
theorem Handed.withNet (hhz : 1 ≤ hz ∧ hz ≤ 1000000000) (h : s.Handed hz)
    (hnext : s.next = s.net.next) {net : CanNet ι} (hextends : s.net.Extends net)
    (hvalid : ∀ tp ∈ net.reported.drop s.net.reported.length, Valid tp)
    : (s.withNet hz net).Handed hz ∧ (s.withNet hz net).next = net.next ∧ (s.withNet hz net).net = net
      ∧ (s.withNet hz net).now = s.now
      ∧ (s.withNet hz net).places .next = nextPlace (s.places .next) net.next := by
  obtain ⟨tps, hreported, hlast⟩ := hextends
  unfold Bridge.withNet
  rw [hreported, List.drop_left] at hvalid ⊢
  have hnet : Handed hz { s with net := net } := ⟨h.toWaits.above _ _ _, h.nextSubmitted, h.queued⟩
  have hhands := hnet.foldl hhz hvalid
  rw [← hnext] at hlast
  exact ⟨hhands.handed, hhands.next.trans hlast.symm, hhands.net, hhands.now,
    hhands.place.trans (congrArg _ hlast.symm)⟩

omit [DecidableEq ι] in
theorem Handed.inv (h : s.Handed hz) {net : CanNet ι} (hnet : s.net = net) (hok : net.Ok) (htold : net.Told)
    (hnext : s.next = net.next) (hvalid : zero < net.next → Valid net.next)
    (hplace : s.places .next ≠ .idle) : s.Inv hz := by
  obtain rfl := hnet
  exact ⟨h.toWaits, hok, htold, hnext, hvalid, iff_of_true h.nextSubmitted hplace, h.queued,
    fun hidle => absurd hidle hplace⟩

omit [DecidableEq ι] in
theorem Inv.withNet (hhz : 1 ≤ hz ∧ hz ≤ 1000000000) (h : s.Inv hz) {net : CanNet ι} (hok : net.Ok)
    (htold : net.Told) (hextends : s.net.Extends net)
    (hvalid : ∀ tp ∈ net.reported.drop s.net.reported.length, Valid tp)
    (hlater : s.places .next = .idle → ∀ tp ∈ net.reported.drop s.net.reported.length, s.now < tp)
    (hquiet : s.places .next = .idle → net.reported = s.net.reported →
      ∀ id, (net.timers id).registered = false) : (s.withNet hz net).Inv hz := by
  have hvalid_next := valid_next_of_extends hextends h.valid_next hvalid
  by_cases hplace : s.places .next = .idle
  . obtain ⟨-, hle⟩ := h.still hplace
    have hsubmitted : s.nextSubmitted = false :=
      Bool.eq_false_of_not_eq_true fun hsubmitted => h.nextSubmitted.1 hsubmitted hplace
    have hlater := hlater hplace
    have hquiet := hquiet hplace
    obtain ⟨tps, hreported, hlast⟩ := hextends
    unfold Bridge.withNet
    rw [hreported, List.drop_left] at hvalid hlater ⊢
    have hnet : Waits hz { s with net := net } := h.toWaits.above _ _ _
    cases tps with
    | nil =>
      rw [List.append_nil] at hreported
      exact ⟨hnet, hok, htold, h.told_next.trans hlast.symm, hvalid_next, h.nextSubmitted, h.queued,
        fun _ => ⟨hquiet hreported, hle⟩⟩
    | cons tp tps =>
      obtain ⟨hhanded, hnext, hsame, hnow, hqueued⟩ := hnet.nextFunc hhz hsubmitted hle
        (hvalid tp List.mem_cons_self) (hlater tp List.mem_cons_self)
      have hhands := hhanded.foldl hhz fun tp' htp' => hvalid tp' (List.mem_cons_of_mem _ htp')
      have hsame' := hhands.net.trans hsame
      rw [List.getLastD_cons] at hlast
      rw [hnext, ← hlast] at hhands
      refine hhands.handed.inv hsame' hok htold hhands.next hvalid_next ?_
      rw [hhands.place, hqueued]
      exact fun hidle => (by cases hidle)
  . obtain ⟨hhanded, hnext, hsame, -, hplace'⟩ :=
      (h.handed hplace).withNet hhz h.told_next hextends hvalid
    refine hhanded.inv hsame hok htold hnext hvalid_next ?_
    rw [hplace']
    exact mt nextPlace_eq_idle_iff.1 hplace

theorem Inv.waitNextFunc (hhz : 1 ≤ hz ∧ hz ≤ 1000000000) (h : s.Inv hz)
    (hposted : s.places .next = .posted) {σ : Type} {func : TimerFunc ι σ} {fuel : Nat}
    {st : σ} {pass : Pass ι σ} (hpass : s.net.setTime func fuel st s.now = some pass)
    (hvalid : ∀ tp ∈ pass.net.reported.drop s.net.reported.length, Valid tp)
    : (s.waitNextFunc hz pass.net).Inv hz := by
  have hne : s.places .next ≠ .idle := by
    rw [hposted]
    exact fun hidle => (by cases hidle)
  obtain ⟨hok, htold, hlater, -⟩ := CanNet.setTime_ok h.ok hpass
  obtain ⟨hextends, htime⟩ := CanNet.setTime_extends hpass
  have hvalid_next := valid_next_of_extends hextends h.valid_next hvalid
  have hidle : Function.update s.places .next WaitPlace.idle .next = .idle := Function.update_self _ _ _
  have hrunning : Handed hz { s with places := Function.update s.places .next .idle } := by
    refine ⟨h.toWaits.leave .next fun _ hvalue => (by cases hvalue), h.nextSubmitted.2 hne, ?_⟩
    intro value hvalue
    cases hidle.symm.trans hvalue
  obtain ⟨hhanded, hnext, hnet, hnow, hplace⟩ := hrunning.withNet hhz h.told_next hextends hvalid
  dsimp only at hnow hplace
  rw [hidle] at hplace
  change _ = WaitPlace.idle at hplace
  unfold Bridge.waitNextFunc
  dsimp only
  generalize Bridge.withNet hz { s with places := Function.update s.places .next .idle } pass.net = s'
    at hhanded hnext hnet hnow hplace ⊢
  have htime : s'.net.time = s.now := (congrArg CanNet.time hnet).trans htime
  rw [htime]
  by_cases hsubmit : timespecCmp s.now s'.next < 0
  . rw [if_pos hsubmit]
    have hlater := (timespecCmp_neg_iff _ _).1 hsubmit
    have hwaits : Waits hz { s' with nextSubmitted := decide (timespecCmp s.now s'.next < 0) } :=
      hhanded.toWaits.above _ _ _
    obtain ⟨hwaits', hbelow, hplaces⟩ := hwaits.submitWait hhz .next
      (hnext ▸ hvalid_next (hnext ▸ h.start.trans_lt hlater)) fun _ => hnow.trans_lt hlater
    have hplace' := congrFun hplaces .next
    rw [Function.update_self] at hplace'
    refine Handed.inv ⟨hwaits', hbelow.nextSubmitted.trans (decide_eq_true hsubmit), ?_⟩
      (hbelow.net.trans hnet) hok htold (hbelow.next.trans hnext) hvalid_next ?_
    . intro value hvalue
      exact (WaitPlace.queued.inj (hplace'.symm.trans hvalue)).symm.trans hbelow.next.symm
    . rw [hplace']
      exact fun hidle => (by cases hidle)
  . rw [if_neg hsubmit, decide_eq_false hsubmit]
    have hle := not_lt.1 (mt (timespecCmp_neg_iff _ _).2 hsubmit)
    refine ⟨hhanded.toWaits.above _ _ _, hnet ▸ hok, hnet ▸ htold,
      hnext.trans (congrArg CanNet.next hnet.symm), hnet ▸ hvalid_next,
      iff_of_false Bool.false_ne_true (fun hne => hne hplace), fun value hvalue => ?_,
      fun _ => ⟨?_, ?_⟩⟩
    . cases hplace.symm.trans hvalue
    . intro id
      refine Bool.eq_false_of_not_eq_true fun hreg => ?_
      have hreg : (pass.net.timers id).registered = true := hnet ▸ hreg
      obtain ⟨⟨first, hfirst, hstart⟩, -⟩ := htold.exact ⟨id, hreg⟩
      have hlt := hlater first hfirst
      rw [hstart, ← hnext] at hlt
      exact hle.not_gt hlt
    . exact hle.trans hnow.ge

theorem Step.inv (hhz : 1 ≤ hz ∧ hz ≤ 1000000000) (hstep : Step hz s s') (h : s.Inv hz)
    : s'.Inv hz := by
  cases hstep with
  | tick =>
    exact h.below (h.toWaits.tick hhz.1) rfl rfl rfl le_rfl Iff.rfl fun _ hvalue => hvalue
  | fire tick harmed htick =>
    exact h.below (h.toWaits.fire hhz.1 harmed htick) rfl rfl rfl le_rfl Iff.rfl fun _ hvalue => hvalue
  | advance =>
    obtain ⟨hwaits, hnet, hnext, hsubmitted, hplaces, hnow⟩ := h.toWaits.advance hhz
    refine h.below hwaits hnet hnext hsubmitted hnow ?_ ?_
    . rw [hplaces]
    . rw [hplaces]
      exact fun _ hvalue => hvalue
  | waitFunc hposted =>
    obtain ⟨hwaits, hbelow, hplaces⟩ := h.toWaits.waitFunc hhz
    refine h.below hwaits hbelow.net hbelow.next hbelow.nextSubmitted hbelow.now.ge ?_ ?_
    . rw [hplaces]
      exact post_eq_idle_iff
    . rw [hplaces]
      exact fun _ hvalue => (post_queued hvalue).1
  | waitNextFunc hposted func fuel st pass hpass hvalid => exact h.waitNextFunc hhz hposted hpass hvalid
  | setTime func fuel st pass hpass hvalid =>
    obtain ⟨hok, htold, -, -⟩ := CanNet.setTime_ok h.ok hpass
    have hquiet (hidle : s.places .next = .idle) : pass.net = { s.net with time := s.now } :=
      CanNet.setTime_quiet h.ok (h.still hidle).1 hpass
    refine h.withNet hhz hok htold (CanNet.setTime_extends hpass).1 hvalid ?_ ?_
    . intro hidle tp htp
      rw [hquiet hidle, List.drop_length] at htp
      cases htp
    . intro hidle _ id
      rw [hquiet hidle]
      exact (h.still hidle).1 id
  | timerOp op hvalid hlater =>
    refine h.withNet hhz (h.ok.apply op) (h.told.apply h.ok op) (CanNet.apply_extends op) hvalid hlater ?_
    exact fun hidle hreported => CanNet.apply_quiet h.ok (h.still hidle).1 op hreported
  | submitConfirm value hidle hvalid hlater =>
    obtain ⟨hwaits, hbelow, hplaces⟩ := h.toWaits.submitWait hhz .confirm hvalid hlater
    have hplace := congrFun hplaces .next
    rw [Function.update_of_ne (by decide)] at hplace
    refine h.below hwaits hbelow.net hbelow.next hbelow.nextSubmitted hbelow.now.ge ?_ ?_
    . rw [hplace]
    . rw [hplace]
      exact fun _ hvalue => hvalue
  | abortConfirm =>
    obtain ⟨hwaits, hbelow, hplaces, -⟩ := h.toWaits.abortWait .confirm
    have hplace : (s.abortWait .confirm).2.places .next = s.places .next := by
      rw [hplaces]
      split
      . exact Function.update_of_ne (by decide) _ _
      . rfl
    refine h.below hwaits hbelow.net hbelow.next hbelow.nextSubmitted hbelow.now.ge ?_ ?_
    . rw [hplace]
    . rw [hplace]
      exact fun _ hvalue => hvalue
  | confirmFunc hposted =>
    have hplace : Function.update s.places .confirm WaitPlace.idle .next = s.places .next :=
      Function.update_of_ne (by decide) _ _
    refine h.below (h.toWaits.leave .confirm fun _ hvalue => (by cases hvalue)) rfl rfl rfl le_rfl ?_ ?_
    . exact hplace ▸ Iff.rfl
    . intro value hvalue
      exact hplace.symm.trans hvalue

theorem Reaches.inv (hhz : 1 ≤ hz ∧ hz ≤ 1000000000) (h : Reaches hz s) : s.Inv hz := by
  induction h with
  | init ticks =>
    have hok := (CanNet.Reaches.init (ι := ι)).ok
    refine ⟨⟨⟨fun _ _ hvalue => (by cases hvalue), fun hne => absurd rfl hne, ?_,
      fun _ => ⟨rfl, fun _ _ hvalue => (by cases hvalue)⟩,
      fun hwaiting => (by cases hwaiting), zero_le_clock _, le_rfl⟩, rfl, fun hne => absurd rfl hne⟩,
      ⟨hok.1.heap, hok.1.nodup, hok.1.mem_iff⟩, ⟨hok.2.first, hok.2.exact⟩, rfl,
      fun hpos => absurd hpos (lt_irrefl _), ?_,
      fun _ hvalue => (by cases hvalue), fun _ => ⟨fun _ => rfl, zero_le_clock _⟩⟩
    . exact iff_of_false Bool.false_ne_true fun hne => hne rfl
    . exact iff_of_false Bool.false_ne_true fun hne => hne rfl
  | step _ hstep ih => exact hstep.inv hhz ih

/--
No timer is forgotten on its way: whatever the services, the network, the timer queue, the passive timer
and the owner do and in whatever order, a timer of the network whose time has come is on its way, as long
as no deadline was too far away for the one-shot timer. The one-shot timer triggers with the next tick at
the latest, or the owner has been told, or the timer queue or the network has work posted.
-/
theorem no_overdue_timer (hlow : 1 ≤ hz) (hhigh : hz ≤ 1000000000) (h : Reaches hz s)
    (hfar : s.far = false) {id : ι} (hreg : (s.net.timers id).registered = true)
    (hdue : (s.net.timers id).start ≤ clock hz s.ticks)
    : s.places .next = .posted ∨ s.queuePlace = .posted ∨ s.due = true
      ∨ ∃ tick, s.armed = some tick ∧ tick ≤ s.ticks + 1 := by
  have hinv := h.inv ⟨hlow, hhigh⟩
  cases hplace : s.places .next with
  | idle => cases hreg.symm.trans ((hinv.still hplace).1 id)
  | posted => exact .inl rfl
  | queued value =>
    have hvalue : value ≤ (s.net.timers id).start := by
      rw [hinv.queued value hplace, hinv.told_next]
      exact hinv.told.first id hreg
    cases hqueue : s.queuePlace with
    | idle => exact absurd hplace ((hinv.idle hqueue).2 _ _)
    | posted => exact .inr (.inl rfl)
    | waiting =>
      obtain ⟨-, hexpiry, hle⟩ := hinv.waiting hqueue
      have hover : s.expiry ≤ clock hz s.ticks := ((hle _ _ hplace).trans hvalue).trans hdue
      obtain ⟨tick, harmed, hmeets⟩ | ⟨hdue', -⟩ := hinv.armed hexpiry.ne' hfar
      . exact .inr (.inr (.inr ⟨tick, harmed, hmeets.2 _ hover⟩))
      . exact .inr (.inr (.inl hdue'))

/-- A timer is started for one millisecond, and its time comes with the first tick. -/
theorem no_overdue_timer_started : ∃ s : Bridge Nat, (s.net.timers 0).registered = true
    ∧ (s.net.timers 0).start ≤ clock 1000 s.ticks
    ∧ (s.places .next = .posted ∨ s.queuePlace = .posted ∨ s.due = true
      ∨ ∃ tick, s.armed = some tick ∧ tick ≤ s.ticks + 1) := by
  have hinit : Reaches 1000 (init 1000 Nat 0) := .init 0
  have hreported : ((init 1000 Nat 0).net.apply (.start 0 (some ⟨0, 1000000⟩) none)).reported.drop
      (init 1000 Nat 0).net.reported.length = [⟨0, 1000000⟩] := rfl
  have hlater : (⟨0, 0⟩ : TimeSpec) < ⟨0, 1000000⟩ := (TimeSpec.lt_iff _ _).2 (by decide)
  have hstarted := hinit.step (.timerOp (.start 0 (some ⟨0, 1000000⟩) none)
    (by
      rw [hreported]
      intro tp htp
      obtain rfl := List.mem_singleton.1 htp
      exact ⟨hlater, ⟨by decide, by decide⟩, by decide⟩)
    (by
      rw [hreported]
      intro _ tp htp
      obtain rfl := List.mem_singleton.1 htp
      exact hlater))
  have hticked := hstarted.step .tick
  have hdue : (⟨0, 1000000⟩ : TimeSpec) ≤ clock 1000 1 := le_of_eq (by decide)
  exact ⟨_, rfl, hdue, @no_overdue_timer Nat _ _ _ (by decide) (by decide) hticked (by decide) 0 rfl hdue⟩

end Bridge

end LelyRtt.Clock
