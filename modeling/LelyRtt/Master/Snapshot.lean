import LelyRtt.Basic
import LelyRtt.Clock.Deadline
import LelyRtt.Conc.Snapshot

/-!
This module contains the snapshots of the last local OD change, SYNC and TIME, which the owner
publishes through a sequence lock and the application reads.
-/

namespace LelyRtt.Snapshot

open Conc

/-- `lely_rtt_local_od_publish` gets the object, the size of the request and the active API flag. -/
structure OdWrite where
  index : BitVec 16
  subindex : BitVec 8
  size : Nat
  apiWriteActive : Bool
  deriving DecidableEq, Repr

/-- `struct lely_rtt_local_od_change` -/
structure OdChange where
  index : BitVec 16
  subindex : BitVec 8
  source : BitVec 32
  size : BitVec 32
  sequence : BitVec 32
  deriving DecidableEq, Repr

/-- `LELY_RTT_LOCAL_OD_CHANGE_LOCAL_API` -/
def sourceLocalApi : BitVec 32 := 0#32

/-- `LELY_RTT_LOCAL_OD_CHANGE_PROTOCOL` -/
def sourceProtocol : BitVec 32 := 1#32

def OdWrite.source (e : OdWrite) : BitVec 32 :=
  if e.apiWriteActive then sourceLocalApi else sourceProtocol

/-- The size of the request, saturated. -/
def OdWrite.size32 (e : OdWrite) : BitVec 32 :=
  if e.size > 0xffffffff then 0xffffffff#32 else .ofNat 32 e.size

/-- What `lely_rtt_master_sync_publish` gets and finds in objects `0x1005` and `0x1006`. -/
structure SyncInput where
  counter : BitVec 8
  cobid : BitVec 32
  period : BitVec 32
  deriving DecidableEq, Repr

/-- `struct lely_rtt_sync_event` -/
structure SyncEvent where
  sequence : BitVec 32
  period : BitVec 32
  counter : BitVec 8
  role : BitVec 8
  deriving DecidableEq, Repr

/-- `LELY_RTT_SYNC_ROLE_CONSUMER` -/
def roleConsumer : BitVec 8 := 1#8

/-- `LELY_RTT_SYNC_ROLE_PRODUCER` -/
def roleProducer : BitVec 8 := 2#8

/-- `CO_SYNC_COBID_PRODUCER` -/
def syncCobidProducer : BitVec 32 := 0x40000000#32

def SyncInput.role (e : SyncInput) : BitVec 8 :=
  if e.cobid &&& syncCobidProducer != 0#32 then roleProducer else roleConsumer

/-- `struct lely_rtt_time_value` -/
structure TimeValue where
  seconds : Int
  nanoseconds : Int
  sequence : BitVec 32
  deriving DecidableEq, Repr

/-- A layout with a single cell, whose data words do not depend on the memory. -/
def single (n : Nat) (data : E → List (BitVec 32)) (h : ∀ e, (data e).length = n) : Layout Unit E where
  cell := fun _ _ => ()
  data := fun _ e => data e
  mark := fun _ _ => none
  size := n
  length_data := fun _ e => h e

/-- The stores of `lely_rtt_local_od_publish`. -/
def localOdPublish : Layout Unit OdWrite :=
  single 4 (fun e => [e.index.setWidth 32, e.subindex.setWidth 32, e.source, e.size32])
    fun _ => rfl

/-- The stores of `lely_rtt_master_sync_publish`. -/
def syncPublish : Layout Unit SyncInput :=
  single 3 (fun e => [e.period, e.counter.setWidth 32, e.role.setWidth 32]) fun _ => rfl

/-- The stores of `lely_rtt_master_time_publish`. -/
def timePublish : Layout Unit Clock.TimeSpec :=
  single 3
    (fun tp =>
      let seconds := BitVec.ofInt 64 tp.sec
      [seconds.setWidth 32, (seconds >>> 32).setWidth 32, BitVec.ofInt 32 tp.nsec])
    fun _ => rfl

/-- The end of `lely_rtt_runtime_get_local_od_change`. -/
def getLocalOdChange (got : List (BitVec 32)) (sequence : BitVec 32) : OdChange where
  index := (got.getD 0 0).setWidth 16
  subindex := (got.getD 1 0).setWidth 8
  source := got.getD 2 0
  size := got.getD 3 0
  sequence := sequence

/-- The end of `lely_rtt_runtime_get_sync`. -/
def getSync (got : List (BitVec 32)) (sequence : BitVec 32) : SyncEvent where
  sequence := sequence
  period := got.getD 0 0
  counter := (got.getD 1 0).setWidth 8
  role := (got.getD 2 0).setWidth 8

/-- The end of `lely_rtt_runtime_get_time`. -/
def getTime (got : List (BitVec 32)) (sequence : BitVec 32) : TimeValue where
  seconds := ((got.getD 1 0).setWidth 64 <<< 32 ||| (got.getD 0 0).setWidth 64).toInt
  nanoseconds := (got.getD 2 0).toInt
  sequence := sequence

/-- The sequence number that a publication defines. -/
def sequence (p : Publication Unit E) : BitVec 32 := (Guard.next p.base + 2#32) / 2#32

/-- The event that `lely_rtt_master_sync_publish` passes to the application after its stores. -/
def syncAppInd (p : Publication Unit SyncInput) : SyncEvent where
  sequence := sequence p
  period := p.event.period
  counter := p.event.counter
  role := p.event.role

/-- The change that a publication stands for. -/
def odChange (p : Publication Unit OdWrite) : OdChange where
  index := p.event.index
  subindex := p.event.subindex
  source := p.event.source
  size := p.event.size32
  sequence := sequence p

/-- The time that a publication stands for, with the widths of the fields. -/
def timeValue (p : Publication Unit Clock.TimeSpec) : TimeValue where
  seconds := Int.bmod p.event.sec (2 ^ 64)
  nanoseconds := Int.bmod p.event.nsec (2 ^ 32)
  sequence := sequence p

/-- What a getter returns. -/
def result (get : List (BitVec 32) → BitVec 32 → R) (r : Option (List (BitVec 32) × BitVec 32))
    : Except RtErr R :=
  match r with
  | none => .error .busy
  | some (got, sequence) => .ok (get got sequence)

/-- A call of the getter comes after `s₀`, and in `s` it loads the word that it returns with. -/
structure Call (L : Layout Unit E) (s₀ s : Sys Unit E Getter)
    (r : Option (List (BitVec 32) × BitVec 32)) : Prop where
  reachable : s₀.writer.Reachable L
  start : s₀.reader = .start
  steps : Sys.Steps L (getter L.size) s₀ s
  returns : Getter.Returns L.size s r

/--
The readers of a snapshot get nothing before the first publication, and `value` of the last
publication after it. The publications are numbered one after the other.
-/
def Untorn (L : Layout Unit E) (get : List (BitVec 32) → BitVec 32 → R)
    (value : Publication Unit E → R) : Prop :=
  (∀ w : Publisher Unit E, w.Reachable L → ∀ l p r, w.opened = l ++ p :: r →
      sequence p = Guard.number (l.length + 1))
  ∧ ∀ s₀ s r, Call L s₀ s r →
      (∀ err, result get r = .error err → err = .busy ∧ s.writer.opened = [])
      ∧ (s.writer.closed.length - s₀.writer.closed.length < 2 ^ 31 - 1 →
          ∀ x, result get r = .ok x →
            ∃ p, s.writer.closed.getLast? = some p ∧ x = value p
              ∧ s.writer.mem (.guard ()) = Guard.next p.base + 2#32)

theorem sequence_place (L : Layout Unit E) (ps : List (Publication Unit E)) (e : E)
    : sequence (Publisher.place L ps e) = Guard.number (ps.length + 1) := by
  simp [sequence, Publisher.place, Guard.number, Guard.closing]

theorem untorn_single {n : Nat} {data : E → List (BitVec 32)} {h : ∀ e, (data e).length = n}
    {get : List (BitVec 32) → BitVec 32 → R} {value : Publication Unit E → R}
    (hget : ∀ p : Publication Unit E, get (data p.event) (sequence p) = value p)
    : Untorn (single n data h) get value := by
  refine ⟨fun w hw l p r heq => ?_, fun s₀ s r hcall => ?_⟩
  . rw [hw.inv.ordered l p r heq, sequence_place]
  . have hinv := Sys.Steps.inv hcall.steps hcall.reachable.inv
    refine ⟨fun err herr => ?_, fun hlt x hx => ?_⟩
    . cases r with
      | none =>
        cases herr
        exact ⟨rfl, Getter.returns_none hinv hcall.returns⟩
      | some r => cases herr
    . cases r with
      | none => cases hx
      | some r =>
        obtain ⟨got, seq⟩ := r
        cases hx
        have hok := Getter.ok_of_steps hcall.reachable.inv hcall.start hcall.steps
        obtain ⟨p, hp, rfl, rfl, hguard⟩ := Getter.returns_some hinv hok hlt hcall.returns
        obtain ⟨ps, hps⟩ := List.getLast?_eq_some_iff.mp hp
        obtain ⟨rest, hrest⟩ := hinv.closed_le
        have hplace := hinv.ordered ps p rest (by rw [← hrest, hps]; simp)
        have hseq : sequence p = Guard.number s.writer.closed.length := by
          rw [hplace, sequence_place, hps, List.length_append]
          rfl
        refine ⟨p, hp, ?_, ?_⟩
        . rw [← hget, hseq, hplace]
          rfl
        . rw [hguard, hplace, hps, List.length_append]
          simp [Publisher.place, Guard.closing]

theorem getLocalOdChange_publish (p : Publication Unit OdWrite)
    : getLocalOdChange
        [p.event.index.setWidth 32, p.event.subindex.setWidth 32, p.event.source, p.event.size32]
        (sequence p) = odChange p := by
  simp [getLocalOdChange, odChange]

theorem getSync_publish (p : Publication Unit SyncInput)
    : getSync [p.event.period, p.event.counter.setWidth 32, p.event.role.setWidth 32] (sequence p)
      = syncAppInd p := by
  simp [getSync, syncAppInd]

/-- The two halves of a word make up the word. -/
theorem join_halves (x : BitVec 64)
    : ((x >>> 32).setWidth 32).setWidth 64 <<< 32 ||| (x.setWidth 32).setWidth 64 = x := by
  ext i hi
  simp only [BitVec.getElem_or, BitVec.getElem_shiftLeft, BitVec.getElem_setWidth,
    BitVec.getLsbD_setWidth, BitVec.getLsbD_ushiftRight]
  by_cases h : i < 32
  . simp [h, BitVec.getLsbD_eq_getElem hi]
  . have hle : 32 ≤ i := Nat.le_of_not_lt h
    have hlt : i - 32 < 32 := by omega
    simp [h, hlt, Nat.add_sub_of_le hle, BitVec.getLsbD_eq_getElem hi]

theorem getTime_publish (p : Publication Unit Clock.TimeSpec)
    : getTime
        [(BitVec.ofInt 64 p.event.sec).setWidth 32,
          (BitVec.ofInt 64 p.event.sec >>> 32).setWidth 32, BitVec.ofInt 32 p.event.nsec]
        (sequence p) = timeValue p := by
  simp only [getTime, timeValue, List.getD_cons_zero, List.getD_cons_succ, join_halves,
    BitVec.toInt_ofInt]

/--
The snapshots of local OD changes, SYNC and TIME are never torn, and their sequence numbers skip
zero.
-/
theorem snapshots_untorn
    : (Untorn localOdPublish getLocalOdChange odChange ∧ Untorn syncPublish getSync syncAppInd
        ∧ Untorn timePublish getTime timeValue)
      ∧ Guard.number 1 = 1
      ∧ ∀ k, Guard.number (k + 1) ≠ 0
          ∧ Guard.number (k + 2)
            = if Guard.number (k + 1) = 0x7fffffff then 1 else Guard.number (k + 1) + 1 := by
  refine ⟨⟨untorn_single getLocalOdChange_publish, untorn_single getSync_publish,
    untorn_single getTime_publish⟩, rfl, fun k => ⟨fun h => ?_, Guard.number_succ k⟩⟩
  have := congrArg BitVec.toNat h
  rw [Guard.toNat_number] at this
  cases this

/-- A writer that has published one time. -/
def published : Publisher Unit Clock.TimeSpec :=
  (Publisher.publish timePublish {} ⟨5000000000, 7⟩).advance.advance.advance.advance.advance

theorem snapshots_untorn_time
    : ∃ s₀ s : Sys Unit Clock.TimeSpec Getter, ∃ got seq,
        Call timePublish s₀ s (some (got, seq))
        ∧ ∃ p, s.writer.closed.getLast? = some p ∧ getTime got seq = timeValue p := by
  have hw : published.Reachable timePublish :=
    (((((Relation.ReflTransGen.single (.publish {} _ rfl)).trans (Publisher.advance_steps _ _)).trans
      (Publisher.advance_steps _ _)).trans (Publisher.advance_steps _ _)).trans
      (Publisher.advance_steps _ _)).trans (Publisher.advance_steps _ _)
  have hsteps : Sys.Steps timePublish (getter 3) ⟨published, .start⟩
      ⟨published, .loading 2 [705032704, 1, 7]⟩ :=
    .tail (.tail (.tail (.single (.load _ (.guard ()) rfl)) (.load _ (.data () 0) rfl))
      (.load _ (.data () 1) rfl)) (.load _ (.data () 2) rfl)
  have hcall : Call timePublish ⟨published, .start⟩ ⟨published, .loading 2 [705032704, 1, 7]⟩
      (some ([705032704, 1, 7], 1)) := ⟨hw, rfl, hsteps, .guard (), rfl, rfl⟩
  obtain ⟨p, hp, hvalue, -⟩ :=
    (snapshots_untorn.1.2.2.2 _ _ _ hcall).2 (by decide) _ rfl
  exact ⟨_, _, _, _, hcall, p, hp, hvalue⟩

end LelyRtt.Snapshot
