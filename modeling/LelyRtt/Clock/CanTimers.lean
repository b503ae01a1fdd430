import LelyRtt.Clock.CanNet

/-!
This module contains what `can_net_set_time` does with the timers of the CAN network: each timer
triggers as if it were alone, and the loop ends.
-/

namespace LelyRtt.Clock

open Heap

variable {ι σ : Type} [DecidableEq ι]

/-! ### One timer among others -/

/-- The timer after it has triggered. -/
def CanTimer.requeued (timer : CanTimer) : CanTimer :=
  if timer.periodic then
    { timer with start := timer.start.add timer.interval }
  else
    { timer with registered := false }

/-- What a timer alone does until `tp`: when it triggers, and what becomes of it. -/
inductive CanTimer.Runs (tp : TimeSpec) : CanTimer → List TimeSpec → CanTimer → Prop
  | stopped {timer : CanTimer} (hreg : timer.registered = false) : Runs tp timer [] timer
  | later {timer : CanTimer} (hreg : timer.registered = true) (hlater : tp < timer.start) :
    Runs tp timer [] timer
  | due {timer timer' : CanTimer} {starts : List TimeSpec} (hreg : timer.registered = true)
    (hdue : timer.start ≤ tp) (hrest : Runs tp timer.requeued starts timer') :
    Runs tp timer (timer.start :: starts) timer'

/-- The timer that an operation is about. -/
def TimerOp.target : TimerOp ι → ι
  | .setFunc id _ => id
  | .start id _ _ => id
  | .stop id => id
  | .timeout id _ => id

/-- When a timer has triggered. -/
def Pass.startsOf (pass : Pass ι σ) (id : ι) : List TimeSpec :=
  (pass.fired.filter fun e => e.1 = id).map Prod.snd

/-- The functions do nothing with the timer, not even its own. -/
def TimerFunc.LeavesAlone (func : TimerFunc ι σ) (id : ι) : Prop :=
  ∀ st net id', ∀ op ∈ (func st net id').2.1, op.target ≠ id

namespace CanNet

variable {net : CanNet ι} {id : ι}

theorem apply_timers_of_ne {op : TimerOp ι} (hne : op.target ≠ id)
    : (net.apply op).timers id = net.timers id := by
  cases op with
  | setFunc id' func => exact Function.update_of_ne (Ne.symm hne) _ _
  | start id' start interval => exact timerStart_timers_of_ne (Ne.symm hne)
  | stop id' => exact timerStop_timers_of_ne (Ne.symm hne)
  | timeout id' timeout =>
    unfold apply timerTimeout
    dsimp only
    split
    . exact timerStop_timers_of_ne (Ne.symm hne)
    . exact timerStart_timers_of_ne (Ne.symm hne)

theorem foldl_timers_of_ne {ops : List (TimerOp ι)} (hne : ∀ op ∈ ops, op.target ≠ id)
    : (ops.foldl apply net).timers id = net.timers id := by
  induction ops generalizing net with
  | nil => rfl
  | cons op ops ih =>
    exact (ih fun op' hmem => hne op' (List.mem_cons_of_mem _ hmem)).trans
      (apply_timers_of_ne (hne op List.mem_cons_self))

theorem requeue_timers_of_ne {id' : ι} (hne : id' ≠ id) : (net.requeue id).timers id' = net.timers id' := by
  unfold requeue
  dsimp only
  split
  . rw [register_timers_of_ne hne, unregister_timers_of_ne hne]
  . exact unregister_timers_of_ne hne

theorem requeue_timers_self (hreg : (net.timers id).registered = true)
    : (net.requeue id).timers id = (net.timers id).requeued := by
  unfold requeue CanTimer.requeued
  dsimp only
  split
  . rw [register_timers_self, unregister_timers_self]
    dsimp only
    rw [← hreg]
  . exact unregister_timers_self

theorem trigger_timers {func : TimerFunc ι σ} (halone : func.LeavesAlone id) {st : σ} {id' : ι}
    : (net.trigger func st id').2.1.timers id = (net.requeue id').timers id := by
  unfold trigger
  dsimp only
  split
  . exact foldl_timers_of_ne (halone st _ id')
  . rfl

theorem setTimeLoop_runs {func : TimerFunc ι σ} (halone : func.LeavesAlone id) {fuel : Nat} {st : σ}
    {pass : Pass ι σ} (h : net.Ok) (hpass : net.setTimeLoop func fuel st = some pass)
    : CanTimer.Runs net.time (net.timers id) (pass.startsOf id) (pass.net.timers id) := by
  induction fuel generalizing st net pass with
  | zero => cases hpass
  | succ fuel ih =>
    have hok := setTimeLoop_ok h hpass
    obtain ⟨rfl, -⟩ | ⟨root, rest, hroot, hdue, hrest, -, hnet, hfired⟩ := setTimeLoop_cases hpass
    . cases hreg : (net.timers id).registered with
      | false => exact .stopped hreg
      | true => exact .later hreg (hok.2.1 id hreg)
    . have hreg := (h.first hroot).1
      have hruns := ih (h.trigger hreg func st) hrest
      rw [trigger_time, trigger_timers halone] at hruns
      rw [hnet, Pass.startsOf, hfired]
      by_cases hid : root.id = id
      . rw [hid] at hruns hreg hdue ⊢
        rw [requeue_timers_self hreg] at hruns
        rw [List.filter_cons_of_pos (by simp), List.map_cons]
        exact .due hreg hdue hruns
      . rw [requeue_timers_of_ne (Ne.symm hid)] at hruns
        rw [List.filter_cons_of_neg (by simpa using hid)]
        exact hruns

/-! ### The loop ends -/

end CanNet

namespace TimeSpec

theorem add_ns (tp inc : TimeSpec) : (tp.add inc).ns = tp.ns + inc.ns := by
  unfold add ns
  dsimp only
  split <;> dsimp only <;> omega

theorem Normalized.add {tp inc : TimeSpec} (htp : tp.Normalized) (hinc : inc.Normalized)
    : (tp.add inc).Normalized := by
  obtain ⟨htp0, htp1⟩ := htp
  obtain ⟨hinc0, hinc1⟩ := hinc
  unfold TimeSpec.add Normalized
  dsimp only
  split <;> dsimp only <;> omega

theorem Normalized.lt_iff {t1 t2 : TimeSpec} (h1 : t1.Normalized) (h2 : t2.Normalized)
    : t1 < t2 ↔ t1.ns < t2.ns := by
  obtain ⟨h10, h11⟩ := h1
  obtain ⟨h20, h21⟩ := h2
  rw [TimeSpec.lt_iff]
  unfold ns
  omega

/-- A time that may be the interval of a timer. -/
def IsInterval (t : TimeSpec) : Prop := t.Normalized ∧ 0 ≤ t.sec

theorem IsInterval.ns_pos {t : TimeSpec} (h : t.IsInterval) (hne : t.sec ≠ 0 ∨ t.nsec ≠ 0) : 0 < t.ns := by
  obtain ⟨⟨h0, h1⟩, hsec⟩ := h
  unfold ns
  omega

theorem addMsec_ns (tp : TimeSpec) (msec : Nat) : (tp.addMsec msec).ns = tp.ns + msec * 1000000 := by
  rw [addMsec, add_ns]
  unfold ns
  dsimp only
  omega

theorem Normalized.addMsec {tp : TimeSpec} (h : tp.Normalized) (msec : Nat) : (tp.addMsec msec).Normalized := by
  refine h.add ⟨?_, ?_⟩
  . dsimp only
    omega
  . dsimp only
    omega

end TimeSpec

namespace CanTimer

def Normal (timer : CanTimer) : Prop := timer.start.Normalized ∧ timer.interval.IsInterval

/-- How often the timer triggers until `tp` when it is left alone. -/
def rounds (tp : TimeSpec) (timer : CanTimer) : Nat :=
  if timer.registered = true ∧ timer.start ≤ tp then
    if timer.periodic then ((tp.ns - timer.start.ns) / timer.interval.ns).toNat + 1 else 1
  else
    0

variable {timer : CanTimer} {tp : TimeSpec}

theorem Normal.requeued (h : timer.Normal) : timer.requeued.Normal := by
  unfold CanTimer.requeued
  split
  . exact ⟨h.1.add h.2.1, h.2⟩
  . exact h

theorem rounds_requeued (h : timer.Normal) (htp : tp.Normalized) (hreg : timer.registered = true)
    (hdue : timer.start ≤ tp) : timer.rounds tp = timer.requeued.rounds tp + 1 := by
  have hlt := h.requeued
  unfold CanTimer.requeued rounds at *
  rw [if_pos ⟨hreg, hdue⟩]
  split
  next hperiodic =>
    rw [if_pos hperiodic] at hlt
    have hpos := h.2.ns_pos (by simpa [periodic] using hperiodic)
    have hle := not_lt.1 fun hlt => not_lt.2 hdue ((htp.lt_iff h.1).2 hlt)
    have hagain : timer.start.add timer.interval ≤ tp ↔ timer.interval.ns ≤ tp.ns - timer.start.ns := by
      rw [← not_lt, htp.lt_iff hlt.1, TimeSpec.add_ns]
      omega
    have hadd : tp.ns - (timer.start.add timer.interval).ns
        = tp.ns - timer.start.ns + timer.interval.ns * (-1) := by
      rw [TimeSpec.add_ns]
      ring
    have hdiv : (tp.ns - (timer.start.add timer.interval).ns) / timer.interval.ns
        = (tp.ns - timer.start.ns) / timer.interval.ns - 1 := by
      rw [hadd, Int.add_mul_ediv_left _ _ (by omega)]
      rfl
    split
    next hmore =>
      have hone : 1 ≤ (tp.ns - timer.start.ns) / timer.interval.ns := by
        rw [Int.le_ediv_iff_mul_le hpos, Int.one_mul]
        exact hagain.1 hmore.2
      have hperiodic' : { timer with start := timer.start.add timer.interval }.periodic = true := hperiodic
      rw [if_pos hperiodic']
      dsimp only
      rw [hdiv]
      omega
    next hless =>
      have hlt := not_le.1 fun hle => hless ⟨hreg, hagain.2 hle⟩
      rw [Int.ediv_eq_zero_of_lt (by omega) hlt]
      rfl
  next hperiodic => rw [if_neg (by simp)]

/-- Each trigger is one interval after the one before, and none is left out. -/
theorem Runs.starts_eq {timer' : CanTimer} {starts : List TimeSpec} (h : Runs tp timer starts timer')
    (hnormal : timer.Normal) (htp : tp.Normalized)
    : starts.map TimeSpec.ns
      = (List.range (timer.rounds tp)).map fun i : Nat => timer.start.ns + i * timer.interval.ns := by
  induction h with
  | stopped hreg => rw [rounds, if_neg (by simp [hreg]), List.range_zero, List.map_nil, List.map_nil]
  | later hreg hlater =>
    rw [rounds, if_neg fun hdue => not_lt.2 hdue.2 hlater, List.range_zero, List.map_nil, List.map_nil]
  | @due timer timer' starts hreg hdue _ ih =>
    have hrest := ih hnormal.requeued
    rw [rounds_requeued hnormal htp hreg hdue, List.range_succ_eq_map, List.map_cons, List.map_cons, hrest,
      List.map_map]
    congr 1
    . simp
    . by_cases hperiodic : timer.periodic = true
      . refine List.map_congr_left fun i _ => ?_
        simp only [requeued, if_pos hperiodic, TimeSpec.add_ns, Function.comp_apply]
        push_cast
        ring
      . have hzero : timer.requeued.rounds tp = 0 := by
          rw [requeued, if_neg hperiodic, rounds, if_neg (by simp)]
        rw [hzero, List.range_zero, List.map_nil, List.map_nil]

end CanTimer

/-- The operation leaves no timer that is due at `tp`. -/
def TimerOp.Later (tp : TimeSpec) : TimerOp ι → Prop
  | .setFunc _ _ => True
  | .start _ none none => True
  | .start _ none (some interval) => interval.IsInterval ∧ (interval.sec ≠ 0 ∨ interval.nsec ≠ 0)
  | .start _ (some first) interval =>
    first.Normalized ∧ tp < first ∧ ∀ i, interval = some i → i.IsInterval
  | .stop _ => True
  | .timeout _ msec => msec ≠ 0

namespace CanNet

variable {net : CanNet ι} {id : ι}

/-- The timers have valid times. -/
def Normal (net : CanNet ι) : Prop := ∀ id, (net.timers id).Normal

/-- How often timers trigger until the time of the network. -/
def rounds (net : CanNet ι) : Nat :=
  (net.heap.entries.map fun e => (net.timers e.1).rounds net.time).sum

omit [DecidableEq ι] in
theorem rounds_setNext : net.setNext.rounds = net.rounds := by
  unfold rounds
  rw [setNext_heap, setNext_timers, setNext_time]

omit [DecidableEq ι] in
/-- The other timers stay as they are. -/
theorem map_rounds_congr (net net' : CanNet ι) {entries : Multiset (ι × TimeSpec)} (htime : net'.time = net.time)
    (hid : id ∉ entries.map Prod.fst) (htimers : ∀ id', id' ≠ id → net'.timers id' = net.timers id')
    : entries.map (fun e => (net'.timers e.1).rounds net'.time)
      = entries.map fun e => (net.timers e.1).rounds net.time := by
  refine Multiset.map_congr rfl fun e he => ?_
  have hne : e.1 ≠ id := fun heq => hid (heq ▸ Multiset.mem_map_of_mem Prod.fst he)
  rw [htime, htimers e.1 hne]

theorem rounds_unregister (h : net.Ok) (hreg : (net.timers id).registered = true)
    : net.rounds = (net.timers id).rounds net.time + (net.unregister id).rounds := by
  have hentries := h.entries_unregister hreg
  have hnodup := h.nodup
  rw [hentries, Multiset.map_cons, Multiset.nodup_cons] at hnodup
  unfold rounds
  rw [hentries, Multiset.map_cons, Multiset.sum_cons,
    map_rounds_congr net (net.unregister id) rfl hnodup.1 fun _ =>
      unregister_timers_of_ne]

theorem rounds_register (h : net.Ok) (hreg : (net.timers id).registered = false) (start interval : TimeSpec)
    : (net.register id start interval).rounds
      = ((net.register id start interval).timers id).rounds net.time + net.rounds := by
  have hnew : id ∉ net.heap.entries.map Prod.fst := by
    intro hmem
    obtain ⟨⟨id', start'⟩, hentry, heq⟩ := Multiset.mem_map.1 hmem
    cases heq
    have hreg' := ((h.mem_iff _ _).1 hentry).1
    rw [hreg] at hreg'
    cases hreg'
  unfold rounds
  rw [show (net.register id start interval).heap.entries = (id, start) ::ₘ net.heap.entries from
    Pheap.entries_insert _ _ _, Multiset.map_cons, Multiset.sum_cons,
    map_rounds_congr net (net.register id start interval) rfl hnew fun _ =>
      register_timers_of_ne]
  rfl

/-- The operation is no reason for a timer to trigger now. -/
theorem rounds_apply_le (h : net.Ok) (hnormal : net.Normal) (htime : net.time.Normalized) {op : TimerOp ι}
    (hlater : op.Later net.time) : (net.apply op).rounds ≤ net.rounds ∧ (net.apply op).Normal := by
  have hstop (id : ι) : (net.timerStop id).rounds ≤ net.rounds ∧ (net.timerStop id).Normal := by
    unfold timerStop
    split
    next hreg =>
      refine ⟨?_, ?_⟩
      . rw [rounds_setNext, rounds_unregister h hreg]
        exact Nat.le_add_left _ _
      . intro id'
        rw [setNext_timers]
        by_cases hid : id' = id
        . rw [hid, unregister_timers_self]
          exact hnormal id
        . rw [unregister_timers_of_ne hid]
          exact hnormal id'
    next hreg => exact ⟨Nat.le_refl _, hnormal⟩
  have hstart (id : ι) (start interval : TimeSpec) (hstart : start.Normalized) (hlt : net.time < start)
      (hinterval : interval.IsInterval)
      : ((net.timerStop id).register id start interval).setNext.rounds ≤ net.rounds
        ∧ ((net.timerStop id).register id start interval).setNext.Normal := by
    refine ⟨?_, ?_⟩
    . rw [rounds_setNext, rounds_register (h.timerStop id) timerStop_registered, register_timers_self,
        timerStop_time, CanTimer.rounds, if_neg fun hdue => not_lt.2 hdue.2 hlt, Nat.zero_add]
      exact (hstop id).1
    . intro id'
      rw [setNext_timers]
      by_cases hid : id' = id
      . rw [hid, register_timers_self]
        exact ⟨hstart, hinterval⟩
      . rw [register_timers_of_ne hid]
        exact (hstop id).2 id'
  have hzero : (⟨0, 0⟩ : TimeSpec).IsInterval := ⟨⟨le_refl _, by decide⟩, le_refl _⟩
  cases op with
  | setFunc id func =>
    have htimer (id' : ι) (tp : TimeSpec)
        : ((net.timerSetFunc id func).timers id').rounds tp = (net.timers id').rounds tp
          ∧ ((net.timerSetFunc id func).timers id').Normal := by
      unfold timerSetFunc
      dsimp only
      by_cases hid : id' = id
      . rw [hid, Function.update_self]
        exact ⟨rfl, hnormal id⟩
      . rw [Function.update_of_ne hid]
        exact ⟨rfl, hnormal id'⟩
    refine ⟨le_of_eq ?_, fun id' => (htimer id' net.time).2⟩
    exact congrArg Multiset.sum (Multiset.map_congr rfl fun e _ => (htimer e.1 net.time).1)
  | start id start interval =>
    cases start with
    | none =>
      cases interval with
      | none => exact hstop id
      | some interval =>
        have hnext := htime.add hlater.1.1
        have hpos := hlater.1.ns_pos hlater.2
        have hlt : net.time < net.time.add interval := by
          rw [htime.lt_iff hnext, TimeSpec.add_ns]
          omega
        have hsame : (net.timerStop id).time.add interval = net.time.add interval := by
          rw [timerStop_time]
        rw [← hsame] at hnext hlt
        exact hstart id _ interval hnext hlt hlater.1
    | some start =>
      refine hstart id start _ hlater.1 hlater.2.1 ?_
      cases interval with
      | none => exact hzero
      | some interval => exact hlater.2.2 interval rfl
  | stop id => exact hstop id
  | timeout id msec =>
    have hne : msec ≠ 0 := hlater
    unfold apply timerTimeout
    dsimp only
    split
    . exact hstop id
    next hge =>
      have hmsec := htime.addMsec msec.toNat
      have hlt : net.time < net.time.addMsec msec.toNat := by
        rw [htime.lt_iff hmsec, TimeSpec.addMsec_ns]
        omega
      exact hstart id _ _ hmsec hlt hzero

theorem rounds_foldl_le {ops : List (TimerOp ι)} (h : net.Ok) (hnormal : net.Normal)
    (htime : net.time.Normalized) (hlater : ∀ op ∈ ops, op.Later net.time)
    : (ops.foldl apply net).rounds ≤ net.rounds ∧ (ops.foldl apply net).Normal := by
  induction ops generalizing net with
  | nil => exact ⟨Nat.le_refl _, hnormal⟩
  | cons op ops ih =>
    obtain ⟨hle, hnormal'⟩ := rounds_apply_le h hnormal htime (hlater op List.mem_cons_self)
    have htime' : (net.apply op).time = net.time := apply_time op
    obtain ⟨hle', hnormal''⟩ := ih (h.apply op) hnormal' (by rw [htime']; exact htime) fun op' hmem => by
      rw [htime']
      exact hlater op' (List.mem_cons_of_mem _ hmem)
    exact ⟨hle'.trans hle, hnormal''⟩

theorem rounds_requeue (h : net.Ok) (hnormal : net.Normal) (htime : net.time.Normalized)
    (hreg : (net.timers id).registered = true) (hdue : (net.timers id).start ≤ net.time)
    : net.rounds = (net.requeue id).rounds + 1 ∧ (net.requeue id).Normal := by
  have hself := requeue_timers_self hreg
  refine ⟨?_, ?_⟩
  . rw [rounds_unregister h hreg, CanTimer.rounds_requeued (hnormal id) htime hreg hdue, ← hself,
      Nat.add_right_comm]
    congr 1
    unfold requeue
    dsimp only
    split
    . rw [rounds_register (h.unregister hreg) (by rw [unregister_timers_self])]
      rfl
    . rw [unregister_timers_self, CanTimer.rounds, if_neg (by simp), Nat.zero_add]
  . intro id'
    by_cases hid : id' = id
    . rw [hid, hself]
      exact (hnormal id).requeued
    . rw [requeue_timers_of_ne hid]
      exact hnormal id'

theorem rounds_trigger_lt {func : TimerFunc ι σ} {st : σ} (h : net.Ok) (hnormal : net.Normal)
    (htime : net.time.Normalized) (hreg : (net.timers id).registered = true)
    (hdue : (net.timers id).start ≤ net.time)
    (hlater : ∀ st net' id, ∀ op ∈ (func st net' id).2.1, op.Later net.time)
    : (net.trigger func st id).2.1.rounds < net.rounds ∧ (net.trigger func st id).2.1.Normal := by
  obtain ⟨hrounds, hnormal'⟩ := rounds_requeue h hnormal htime hreg hdue
  unfold trigger
  dsimp only
  split
  . obtain ⟨hle, hnormal''⟩ := rounds_foldl_le (h.requeue hreg) hnormal' (by rw [requeue_time]; exact htime)
      (by rw [requeue_time]; exact hlater st (net.requeue id) id)
    exact ⟨by dsimp only; omega, hnormal''⟩
  . exact ⟨by dsimp only; omega, hnormal'⟩

theorem setTimeLoop_ends {func : TimerFunc ι σ} {fuel : Nat} {st : σ} (h : net.Ok) (hnormal : net.Normal)
    (htime : net.time.Normalized)
    (hlater : ∀ st net' id, ∀ op ∈ (func st net' id).2.1, op.Later net.time) (hfuel : net.rounds < fuel)
    : ∃ pass, net.setTimeLoop func fuel st = some pass ∧ pass.fired.length ≤ net.rounds := by
  induction fuel generalizing st net with
  | zero => exact absurd hfuel (Nat.not_lt_zero _)
  | succ fuel ih =>
    rw [setTimeLoop]
    cases hroot : net.heap.root with
    | none => exact ⟨_, rfl, Nat.zero_le _⟩
    | some root =>
      dsimp only
      split
      . exact ⟨_, rfl, Nat.zero_le _⟩
      next hdue =>
        have hle := not_lt.1 fun hlt => hdue ((timespecCmp_pos_iff _ _).2 hlt)
        have hreg := (h.first hroot).1
        obtain ⟨hlt, hnormal'⟩ : (net.trigger func st root.id).2.1.rounds < net.rounds
            ∧ (net.trigger func st root.id).2.1.Normal :=
          rounds_trigger_lt h hnormal htime hreg hle hlater
        obtain ⟨rest, hrest, hlen⟩ := @ih _ (net.trigger func st root.id).1 (h.trigger hreg func st) hnormal'
          (by rw [trigger_time]; exact htime) (by rw [trigger_time]; exact hlater) (by omega)
        rw [hrest]
        refine ⟨_, rfl, ?_⟩
        rw [List.length_cons]
        omega

/--
When `can_net_set_time` returns, no timer that is still registered is due, and none has triggered too
early. Each timer with which the functions do nothing has triggered as if it were alone: at its start
and then after each interval, as often as that is not after the new time.
-/
theorem set_time_exact {func : TimerFunc ι σ} {fuel : Nat} {st : σ} {tp : TimeSpec} {pass : Pass ι σ}
    (h : net.Reaches) (hpass : net.setTime func fuel st tp = some pass)
    : (∀ id, (pass.net.timers id).registered = true → tp < (pass.net.timers id).start)
      ∧ (∀ e ∈ pass.fired, e.2 ≤ tp)
      ∧ ∀ id, func.LeavesAlone id →
        CanTimer.Runs tp (net.timers id) (pass.startsOf id) (pass.net.timers id)
          ∧ ((net.timers id).Normal → tp.Normalized →
            (pass.startsOf id).map TimeSpec.ns = (List.range ((net.timers id).rounds tp)).map fun i : Nat =>
              (net.timers id).start.ns + i * (net.timers id).interval.ns) := by
  obtain ⟨-, -, hlater, hle⟩ := setTime_ok h.ok.1 hpass
  refine ⟨hlater, hle, ?_⟩
  intro id halone
  obtain ⟨rest, hrest, rfl⟩ := Option.map_eq_some_iff.1 hpass
  have hnow : { net with time := tp }.Ok := ⟨h.ok.1.heap, h.ok.1.nodup, h.ok.1.mem_iff⟩
  have hruns := setTimeLoop_runs halone hnow hrest
  dsimp only at hruns ⊢
  rw [setNext_timers]
  exact ⟨hruns, hruns.starts_eq⟩

/-- A timer with an interval of two seconds triggers three times until the sixth second. -/
theorem set_time_exact_periodic : ∃ pass : Pass Nat Unit,
    pass.fired = [(1, ⟨1, 0⟩), (1, ⟨3, 0⟩), (1, ⟨5, 0⟩)]
      ∧ ∀ id, (pass.net.timers id).registered = true → ⟨6, 0⟩ < (pass.net.timers id).start := by
  have h : (init Nat).Reaches := .init
  have hstarted := h.apply (.start 1 (some ⟨1, 0⟩) (some ⟨2, 0⟩))
  have hpass : ((init Nat).apply (.start 1 (some ⟨1, 0⟩) (some ⟨2, 0⟩))).setTime
      (fun _ _ _ => ((), [], false)) 4 () ⟨6, 0⟩ = some _ := rfl
  exact ⟨_, rfl, (set_time_exact hstarted hpass).1⟩

/--
`can_net_set_time` returns if the functions start no timer that is due at once, and each timer has
triggered no more often than it would have alone.
-/
theorem set_time_ends {func : TimerFunc ι σ} {tp : TimeSpec} (h : net.Reaches) (hnormal : net.Normal)
    (htp : tp.Normalized) (hlater : ∀ st net' id, ∀ op ∈ (func st net' id).2.1, op.Later tp) (st : σ)
    : ∃ fuel pass, net.setTime func fuel st tp = some pass
      ∧ pass.fired.length ≤ { net with time := tp }.rounds := by
  have hnow : { net with time := tp }.Ok := ⟨h.ok.1.heap, h.ok.1.nodup, h.ok.1.mem_iff⟩
  obtain ⟨rest, hrest, hlen⟩ : ∃ rest, setTimeLoop func ({ net with time := tp }.rounds + 1) st
      { net with time := tp } = some rest ∧ rest.fired.length ≤ { net with time := tp }.rounds :=
    setTimeLoop_ends hnow hnormal htp hlater (Nat.lt_succ_self _)
  refine ⟨{ net with time := tp }.rounds + 1, { rest with net := rest.net.setNext }, ?_, hlen⟩
  rw [setTime, hrest]
  rfl

/-- A timer with a function, and due at the first second. -/
def armed : CanNet Nat := ((init Nat).apply (.setFunc 1 true)).apply (.start 1 (some ⟨1, 0⟩) none)

theorem armed_reaches : armed.Reaches := (Reaches.init.apply _).apply _

/-- The function is called and starts its timer again, one millisecond after the new time. -/
theorem set_time_ends_timeout
    : (armed.timers 1).func = true
      ∧ ∃ fuel pass, armed.setTime (fun _ _ id => ((), [.timeout id 1], false)) fuel () ⟨6, 0⟩ = some pass
        ∧ pass.fired.length ≤ { armed with time := ⟨6, 0⟩ }.rounds := by
  refine ⟨rfl, set_time_ends armed_reaches ?_ ⟨by decide, by decide⟩ ?_ ()⟩
  . intro id
    by_cases hid : id = 1
    . rw [hid]
      exact ⟨⟨by decide, by decide⟩, ⟨by decide, by decide⟩, by decide⟩
    . rw [armed, apply_timers_of_ne (Ne.symm hid), apply_timers_of_ne (Ne.symm hid)]
      change CanTimer.Normal ⟨false, ⟨0, 0⟩, ⟨0, 0⟩, false⟩
      exact ⟨⟨by decide, by decide⟩, ⟨by decide, by decide⟩, by decide⟩
  . intro _ _ id op hop
    rw [List.mem_singleton.1 hop]
    exact one_ne_zero

end CanNet

end LelyRtt.Clock
