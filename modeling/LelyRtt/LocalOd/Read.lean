import LelyRtt.Basic
import Mathlib.Data.List.Range
import Mathlib.Data.Nat.Find
import Mathlib.Algebra.Ring.Nat

/-!
This module contains `lely_rtt_local_od_read_owner`, which assembles the answers of `co_sub_up_ind`
to one block, and the calls around it.
-/

namespace LelyRtt.LocalOd

/-- `CO_SDO_AC_NO_OBJ` -/
def acNoObj : BitVec 32 := 0x06020000#32

/-- `CO_SDO_AC_NO_SUB` -/
def acNoSub : BitVec 32 := 0x06090011#32

/-- `CO_SDO_AC_NO_DATA` -/
def acNoData : BitVec 32 := 0x08000024#32

/-- `CO_OBJECT_ARRAY` -/
def objectArray : Nat := 0x08

/--
What one call of `co_sub_up_ind` returns and leaves in the `struct co_sdo_req`, with a `size_t` of
`w` bits. The bytes at `buf` are given by their index.
-/
structure Answer (w : Nat) where
  ac : BitVec 32
  size : Nat
  nbyte : Nat
  offset : Nat
  buf : Option (Nat → UInt8)
  size_lt : size < 2 ^ w
  nbyte_lt : nbyte < 2 ^ w
  offset_lt : offset < 2 ^ w

/-- A sub-object, by the answers that the successive calls of `co_sub_up_ind` on it get. -/
abbrev Sub (w : Nat) := Nat → Answer w

/-- `co_obj_t` -/
structure Obj (w : Nat) where
  code : Nat
  valU8 : Nat
  sub : Nat → Option (Sub w)

/-- The object dictionary of a device. -/
abbrev Dict (w : Nat) := Nat → Option (Obj w)

/-- `struct lely_rtt_local_od_request` of a read. The output is the address of a block. -/
structure Request where
  index : Nat
  subindex : Nat
  abortCode : BitVec 32
  output : Option Nat
  outputSize : Nat
  deriving DecidableEq, Repr

/-- The allocated blocks and the number of initialized `struct co_sdo_req`. -/
@[ext]
structure Mem where
  block : Nat → Option (List (Option UInt8))
  sdoReqs : Nat

/-- Where `rt_malloc` puts a new block, if it finds a place for it. -/
structure Allocator where
  place : Mem → Nat → Option Nat
  fresh : ∀ {m n a}, place m n = some a → m.block a = none

/-- `rt_malloc`. A new block is uninitialized. -/
def rtMalloc (al : Allocator) (m : Mem) (n : Nat) : Option (Nat × Mem) :=
  (al.place m n).map fun a =>
    (a, { m with block := Function.update m.block a (some (List.replicate n none)) })

/-- `rt_free` -/
def rtFree (m : Mem) : Option Nat → Mem
  | none => m
  | some a => { m with block := Function.update m.block a none }

/-- `rt_memcpy((rt_uint8_t *)dst + off, bytes, ...)`, which must stay inside the block at `dst`. -/
def rtMemcpy (m : Mem) (dst : Option Nat) (off : Nat) (bytes : List UInt8) : Option Mem := do
  let a ← dst
  let b ← m.block a
  if off + bytes.length ≤ b.length then
    let b := b.take off ++ bytes.map some ++ b.drop (off + bytes.length)
    some { m with block := Function.update m.block a (some b) }
  else
    none

/-- `co_sdo_req_init` -/
def coSdoReqInit (m : Mem) : Mem := { m with sdoReqs := m.sdoReqs + 1 }

/-- `co_sdo_req_fini` -/
def coSdoReqFini (m : Mem) : Mem := { m with sdoReqs := m.sdoReqs - 1 }

/-- `co_sdo_req_last` -/
def Answer.last (a : Answer w) : Bool := (a.offset + a.nbyte) % 2 ^ w ≥ a.size

/-- The bytes that an answer carries. -/
def Answer.bytes (a : Answer w) : List UInt8 :=
  match a.buf with
  | none => []
  | some buf => (List.range a.nbyte).map buf

/-- The local variables of `lely_rtt_local_od_read_owner`. -/
structure Locals where
  copy : Option Nat
  copied : Nat
  total : Nat
  deriving DecidableEq, Repr

/-- How `lely_rtt_local_od_read_owner` ends. `calls` counts the calls of `co_sub_up_ind`. -/
inductive Result where
  | returned (err : RtErr) (request : Request) (m : Mem) (calls : Nat)
  | overrun
  | unfinished

/-- What one pass of the loop leads to. -/
inductive Pass where
  | again (m : Mem) (l : Locals)
  | stop (r : Result)

/-- The exits of the loop with an error. -/
def giveUp (err : RtErr) (request : Request) (m : Mem) (l : Locals) (calls : Nat) : Pass :=
  .stop (.returned err request (rtFree (coSdoReqFini m) l.copy) calls)

/-- The code after the loop. -/
def deliver (request : Request) (m : Mem) (l : Locals) (calls : Nat) : Pass :=
  if l.copied ≠ l.total then
    giveUp .error request m l calls
  else
    .stop (.returned .ok { request with output := l.copy, outputSize := l.copied }
      (coSdoReqFini m) calls)

/-- The part of a pass that adds the segment to the block. -/
def addSegment (a : Answer w) (request : Request) (m : Mem) (l : Locals) (calls : Nat) : Pass :=
  if a.offset ≠ l.copied ∨ l.copied > l.total ∨ a.nbyte > l.total - l.copied
      ∨ a.nbyte ≠ 0 ∧ a.buf.isNone then
    giveUp .error request m l calls
  else
    let copied : Option (Mem × Locals) :=
      if a.nbyte ≠ 0 then
        (rtMemcpy m l.copy l.copied a.bytes).map fun m =>
          (m, { l with copied := (l.copied + a.nbyte) % 2 ^ w })
      else
        some (m, l)
    match copied with
    | none => .stop .overrun
    | some (m, l) =>
      if a.last then
        deliver request m l calls
      else if a.nbyte = 0 then
        giveUp .nosys request m l calls
      else
        .again m l

/-- One pass of the loop. -/
def pass (al : Allocator) (a : Answer w) (request : Request) (m : Mem) (l : Locals)
    (calls : Nat) : Pass :=
  if a.ac ≠ 0 then
    giveUp .error { request with abortCode := a.ac } m l calls
  else if l.copy.isNone ∧ a.size ≠ 0 then
    match rtMalloc al m a.size with
    | none => giveUp .nomem request m l calls
    | some (copy, m) => addSegment a request m { l with copy := some copy, total := a.size } calls
  else if l.copy.isSome ∧ a.size ≠ l.total then
    giveUp .error request m l calls
  else
    addSegment a request m l calls

/-- The loop after `k` passes, for at most `fuel` more. -/
def readLoop (al : Allocator) (sub : Sub w) (request : Request) :
    Nat → Nat → Mem → Locals → Result
  | 0, _, _, _ => .unfinished
  | fuel + 1, k, m, l =>
    match pass al (sub k) request m l (k + 1) with
    | .stop r => r
    | .again m l => readLoop al sub request fuel (k + 1) m l

/-- `lely_rtt_local_od_find_sub` -/
def findSub (dict : Dict w) (request : Request) : Except (BitVec 32) (Sub w) :=
  match dict request.index with
  | none => .error acNoObj
  | some obj =>
    match obj.sub request.subindex with
    | none => .error acNoSub
    | some sub =>
      if obj.code = objectArray ∧ request.subindex ≠ 0 ∧ request.subindex > obj.valU8 then
        .error acNoData
      else
        .ok sub

/-- `lely_rtt_local_od_read_owner`, for at most `fuel` calls of `co_sub_up_ind`. -/
def readOwner (al : Allocator) (dict : Dict w) (fuel : Nat) (request : Request) (m : Mem) :
    Result :=
  match findSub dict request with
  | .error ac => .returned .error { request with abortCode := ac } m 0
  | .ok sub => readLoop al sub request fuel 0 (coSdoReqInit m) ⟨none, 0, 0⟩

/-- `lely_rtt_local_od_dispatch` of a read. Without a master there is no dictionary. -/
def dispatch (al : Allocator) (masterDev : Option (Dict w)) (fuel : Nat) (request : Request)
    (m : Mem) : Result :=
  match masterDev with
  | none => .returned .busy request m 0
  | some dict => readOwner al dict fuel request m

/-- `LELY_RTT_LOCAL_OD_INDEX_MIN` -/
def indexMin : Nat := 0x2000

/-- `LELY_RTT_LOCAL_OD_INDEX_MAX` -/
def indexMax : Nat := 0x5fff

/--
`lely_rtt_runtime_local_od_read`, with the contents of `*data` and `*size`. `submit` is the error
that keeps the request from the owner, if there is one.
-/
def runtimeLocalOdRead (al : Allocator) (masterDev : Option (Dict w)) (submit : Option RtErr)
    (fuel index subindex : Nat) (out : Option Nat × Nat) (m : Mem) :
    Option (RtErr × (Option Nat × Nat) × Mem) :=
  if index < indexMin ∨ index > indexMax then
    some (.inval, out, m)
  else
    match submit with
    | some err => some (err, out, m)
    | none =>
      match dispatch al masterDev fuel ⟨index, subindex, 0, none, 0⟩ m with
      | .returned .ok request m _ => some (.ok, (request.output, request.outputSize), m)
      | .returned err _ m _ => some (err, out, m)
      | .overrun | .unfinished => none

/-- The bytes of the first `k` answers. -/
def Sub.segments (sub : Sub w) (k : Nat) : List UInt8 :=
  (List.range k).flatMap fun i => (sub i).bytes

/-- The number of bytes that the first `k` answers announce. -/
def Sub.offset (sub : Sub w) : Nat → Nat
  | 0 => 0
  | k + 1 => sub.offset k + (sub k).nbyte

/-- The first size other than zero that the answers declare, and zero if there is none. -/
def Sub.Declares (sub : Sub w) (n : Nat) : Prop :=
  (∃ k, (sub k).size = n ∧ n ≠ 0 ∧ ∀ j < k, (sub j).size = 0) ∨ n = 0 ∧ ∀ k, (sub k).size = 0

/-- Answer `k` continues the first `k` answers. -/
structure Sub.Fits (sub : Sub w) (k : Nat) : Prop where
  ac : (sub k).ac = 0
  size : (sub k).size = (sub 0).size
  offset : (sub k).offset = sub.offset k
  buf : (sub k).nbyte ≠ 0 → (sub k).buf.isSome
  le : sub.offset k + (sub k).nbyte ≤ (sub 0).size

/-- Answer `k` continues the first `k` answers and more have to follow. -/
structure Sub.Continues (sub : Sub w) (k : Nat) : Prop extends sub.Fits k where
  pos : (sub k).nbyte ≠ 0
  lt : sub.offset k + (sub k).nbyte < (sub 0).size

/-- Answer `k` completes the first `k` answers. -/
structure Sub.Completes (sub : Sub w) (k : Nat) : Prop extends sub.Fits k where
  eq : sub.offset k + (sub k).nbyte = (sub 0).size

/-- The block at `a` after the first `k` answers, of which `n` bytes are still missing. -/
def Mem.hold (m : Mem) (a : Nat) (bytes : List UInt8) (n : Nat) : Mem :=
  { m with block := Function.update m.block a (some (bytes.map some ++ List.replicate n none)) }

theorem Answer.length_bytes (a : Answer w) (h : a.nbyte ≠ 0 → a.buf.isSome) :
    a.bytes.length = a.nbyte := by
  unfold bytes
  cases hb : a.buf with
  | none =>
    by_contra hne
    have : a.nbyte ≠ 0 := fun h0 => hne (by simp [h0])
    simpa [hb] using h this
  | some buf => simp

namespace Sub

variable {sub : Sub w}

@[simp]
theorem segments_zero : sub.segments 0 = [] := rfl

theorem segments_succ (k : Nat) : sub.segments (k + 1) = sub.segments k ++ (sub k).bytes := by
  simp [segments, List.range_succ]

theorem length_segments {k : Nat} (h : ∀ j < k, sub.Continues j) :
    (sub.segments k).length = sub.offset k := by
  induction k with
  | zero => rfl
  | succ k ih =>
    have hk := h k (Nat.lt_succ_self k)
    rw [segments_succ, List.length_append, ih fun j hj => h j (Nat.lt_succ_of_lt hj),
      Answer.length_bytes _ hk.buf, offset]

theorem le_offset {k : Nat} (h : ∀ j < k, sub.Continues j) : k ≤ sub.offset k := by
  induction k with
  | zero => exact Nat.zero_le _
  | succ k ih =>
    have hpos := (h k (Nat.lt_succ_self k)).pos
    have := ih fun j hj => h j (Nat.lt_succ_of_lt hj)
    simp only [offset]
    omega

theorem offset_le {k : Nat} (h : ∀ j < k, sub.Continues j) : sub.offset k ≤ (sub 0).size := by
  cases k with
  | zero => exact Nat.zero_le _
  | succ k => exact (h k (Nat.lt_succ_self k)).le

/-- The first size other than zero is the one of the first answer, if that one is not zero. -/
theorem Declares.eq {n : Nat} (h : sub.Declares n) (hne : (sub 0).size ≠ 0) :
    (sub 0).size = n := by
  rcases h with ⟨k, rfl, hn, hz⟩ | ⟨rfl, hz⟩
  . cases k with
    | zero => rfl
    | succ k => exact absurd (hz 0 (Nat.succ_pos k)) hne
  . exact absurd (hz 0) hne

end Sub

section

variable {m : Mem} {a : Nat}

@[simp]
theorem hold_block (bytes : List UInt8) (n : Nat) :
    (m.hold a bytes n).block a = some (bytes.map some ++ List.replicate n none) := by
  simp [Mem.hold]

theorem rtMalloc_eq_none {al : Allocator} {n : Nat} :
    rtMalloc al m n = none ↔ al.place m n = none := by
  simp [rtMalloc]

theorem rtMalloc_eq_some {al : Allocator} {n : Nat} (h : al.place m n = some a) :
    rtMalloc al m n = some (a, m.hold a [] n) := by
  simp [rtMalloc, h, Mem.hold]

/-- Freeing a block leaves the memory as it was before the block was allocated. -/
theorem rtFree_hold (hfresh : m.block a = none) (bytes : List UInt8) (n : Nat) :
    rtFree (coSdoReqFini (m.hold a bytes n)) (some a) = coSdoReqFini m := by
  ext1
  . funext b
    simp only [rtFree, coSdoReqFini, Mem.hold, Function.update_idem]
    rcases eq_or_ne b a with rfl | hb
    . simp [hfresh]
    . simp [hb]
  . rfl

/-- A copy that fits extends the bytes and leaves the rest of the block as it is. -/
theorem rtMemcpy_hold (bytes seg : List UInt8) (n : Nat) (h : seg.length ≤ n) :
    rtMemcpy (m.hold a bytes n) (some a) bytes.length seg
      = some (m.hold a (bytes ++ seg) (n - seg.length)) := by
  have hle : bytes.length + seg.length ≤ bytes.length + n := Nat.add_le_add_left h _
  simp only [rtMemcpy, Option.bind_eq_bind, Option.bind_some, hold_block, List.length_append,
    List.length_map, List.length_replicate, hle, if_true]
  have hdrop : List.drop (bytes.length + seg.length) (bytes.map some) = [] :=
    List.drop_eq_nil_of_le (by simp)
  simp [Mem.hold, List.drop_append, List.append_assoc, hdrop]

end

section

variable {sub : Sub w} {al : Allocator} {request : Request} {m : Mem} {a k calls : Nat}

/-- The local variables after the first `k` answers, with the block at `a`. -/
def Sub.locals (sub : Sub w) (a k : Nat) : Locals := ⟨some a, sub.offset k, (sub 0).size⟩

/-- The memory after the first `k` answers, with the block at `a`. -/
def Sub.mem (sub : Sub w) (m : Mem) (a k : Nat) : Mem :=
  m.hold a (sub.segments k) ((sub 0).size - sub.offset k)

/-- An error leaves the memory as it was before the call. -/
theorem giveUp_mem (hfresh : m.block a = none) (err : RtErr) :
    giveUp err request (sub.mem m a k) (sub.locals a k) calls
      = .stop (.returned err request (coSdoReqFini m) calls) := by
  simp [giveUp, Sub.mem, Sub.locals, rtFree_hold hfresh]

/-- An answer that does not fit is refused. -/
theorem addSegment_unfit (hfresh : m.block a = none) (hac : (sub k).ac = 0)
    (hsize : (sub k).size = (sub 0).size) (hle : sub.offset k ≤ (sub 0).size)
    (h : ¬ sub.Fits k) :
    addSegment (sub k) request (sub.mem m a k) (sub.locals a k) calls
      = .stop (.returned .error request (coSdoReqFini m) calls) := by
  have hbad : (sub k).offset ≠ sub.offset k ∨ sub.offset k > (sub 0).size
      ∨ (sub k).nbyte > (sub 0).size - sub.offset k ∨ (sub k).nbyte ≠ 0 ∧ (sub k).buf.isNone := by
    by_contra hgood
    simp only [not_or, not_and, Decidable.not_not] at hgood
    obtain ⟨hoff, -, hn, hbuf⟩ := hgood
    refine h ⟨hac, hsize, hoff, fun hne => ?_, by omega⟩
    simpa [Option.isSome_iff_ne_none] using hbuf hne
  unfold addSegment
  rw [if_pos (by simpa only [Sub.locals] using hbad)]
  exact giveUp_mem hfresh _

/-- The state after the segment of an answer that fits. -/
theorem append_mem (hseg : (sub.segments k).length = sub.offset k) (h : sub.Fits k) :
    (if (sub k).nbyte ≠ 0 then
        (rtMemcpy (sub.mem m a k) (sub.locals a k).copy (sub.locals a k).copied (sub k).bytes).map
          fun m => (m, { sub.locals a k with copied := (sub.offset k + (sub k).nbyte) % 2 ^ w })
      else
        some (sub.mem m a k, sub.locals a k))
      = some (sub.mem m a (k + 1), sub.locals a (k + 1)) := by
  have hlen := Answer.length_bytes _ h.buf
  have hle := h.le
  have hlt := (sub 0).size_lt
  split
  next hne =>
    have hcopy := rtMemcpy_hold (m := m) (a := a) (sub.segments k) (sub k).bytes
      ((sub 0).size - sub.offset k) (by omega)
    rw [hseg, hlen] at hcopy
    simp only [Sub.mem, Sub.locals, hcopy, Option.map_some, Sub.segments_succ, Sub.offset,
      Nat.mod_eq_of_lt (Nat.lt_of_le_of_lt hle hlt), Nat.sub_sub]
  next hz =>
    have hz : (sub k).nbyte = 0 := Decidable.not_not.mp hz
    have hnil : (sub k).bytes = [] := List.eq_nil_of_length_eq_zero (hlen.trans hz)
    simp [Sub.mem, Sub.locals, Sub.segments_succ, Sub.offset, hz, hnil]

/-- What becomes of an answer that fits. -/
theorem addSegment_fits (hfresh : m.block a = none)
    (hseg : (sub.segments k).length = sub.offset k) (h : sub.Fits k) :
    addSegment (sub k) request (sub.mem m a k) (sub.locals a k) calls
      = if sub.offset k + (sub k).nbyte = (sub 0).size then
          .stop (.returned .ok { request with output := some a, outputSize := (sub 0).size }
            (coSdoReqFini (sub.mem m a (k + 1))) calls)
        else if (sub k).nbyte = 0 then
          .stop (.returned .nosys request (coSdoReqFini m) calls)
        else
          .again (sub.mem m a (k + 1)) (sub.locals a (k + 1)) := by
  have hle := h.le
  have hlt := (sub 0).size_lt
  have hgood : ¬ ((sub k).offset ≠ (sub.locals a k).copied
      ∨ (sub.locals a k).copied > (sub.locals a k).total
      ∨ (sub k).nbyte > (sub.locals a k).total - (sub.locals a k).copied
      ∨ (sub k).nbyte ≠ 0 ∧ (sub k).buf.isNone) := by
    simp only [Sub.locals, h.offset, not_or, not_and, Decidable.not_not]
    refine ⟨trivial, by omega, by omega, fun hne => ?_⟩
    simpa [Option.isSome_iff_ne_none] using h.buf hne
  have hlast : (sub k).last = true ↔ sub.offset k + (sub k).nbyte = (sub 0).size := by
    simp only [Answer.last, h.offset, h.size, Nat.mod_eq_of_lt (Nat.lt_of_le_of_lt hle hlt),
      decide_eq_true_eq]
    omega
  unfold addSegment
  rw [if_neg hgood]
  have happ := append_mem (m := m) (a := a) hseg h
  simp only [Sub.locals] at happ ⊢
  simp only [happ, hlast]
  split
  next heq => simp [deliver, Sub.offset, heq]
  next =>
    split
    next => exact giveUp_mem hfresh _
    next => rfl

/-- A pass over an answer after the first, which has to declare the same size. -/
theorem pass_locals :
    pass al (sub k) request (sub.mem m a k) (sub.locals a k) calls
      = if (sub k).ac ≠ 0 then
          giveUp .error { request with abortCode := (sub k).ac } (sub.mem m a k) (sub.locals a k)
            calls
        else if (sub k).size ≠ (sub 0).size then
          giveUp .error request (sub.mem m a k) (sub.locals a k) calls
        else
          addSegment (sub k) request (sub.mem m a k) (sub.locals a k) calls := by
  simp [pass, Sub.locals]

/-- The pass over the first answer, which allocates the block. -/
theorem pass_first (hac : (sub 0).ac = 0) (hsize : (sub 0).size ≠ 0)
    (ha : al.place m (sub 0).size = some a) :
    pass al (sub 0) request m ⟨none, 0, 0⟩ calls
      = addSegment (sub 0) request (sub.mem m a 0) (sub.locals a 0) calls := by
  simp [pass, hac, hsize, rtMalloc_eq_some ha, Sub.mem, Sub.locals, Sub.offset]

end

/-- The end of a read that fails with the answer `c`. -/
def Sub.Fails (sub : Sub w) (request : Request) (m : Mem) (c : Nat) (r : Result) : Prop :=
  (sub.Fits c ∧ r = .returned .nosys request m (c + 1))
    ∨ (¬ sub.Fits c ∧ (sub c).ac = 0 ∧ r = .returned .error request m (c + 1))
    ∨ ((sub c).ac ≠ 0
        ∧ r = .returned .error { request with abortCode := (sub c).ac } m (c + 1))

/-- The end of a read that succeeds with the answer `c`. -/
def Sub.Succeeds (sub : Sub w) (request : Request) (m : Mem) (c : Nat) (r : Result) : Prop :=
  (sub.segments (c + 1)).length = (sub 0).size
    ∧ ∃ output m',
        r = .returned .ok { request with output, outputSize := (sub 0).size } m' (c + 1)
        ∧ (output = none ∧ (sub 0).size = 0 ∧ m' = m
          ∨ ∃ a, output = some a ∧ m.block a = none ∧ m' = m.hold a (sub.segments (c + 1)) 0)

/-- How a read ends with the answer `c`. -/
def Sub.Ends (sub : Sub w) (request : Request) (m : Mem) (c : Nat) (r : Result) : Prop :=
  (sub.Completes c → sub.Succeeds request m c r) ∧ (¬ sub.Completes c → sub.Fails request m c r)

section

variable {sub : Sub w} {al : Allocator} {request : Request} {m : Mem} {a c : Nat}

theorem Sub.length_segments_completes (hlt : ∀ j < c, sub.Continues j) (h : sub.Completes c) :
    (sub.segments (c + 1)).length = (sub 0).size := by
  rw [segments_succ, List.length_append, length_segments hlt, Answer.length_bytes _ h.buf, h.eq]

@[simp]
theorem coSdoReqFini_init : coSdoReqFini (coSdoReqInit m) = m := rfl

/-- What the segment of the last answer leads to. -/
theorem addSegment_ends (hfresh : m.block a = none) (hlt : ∀ j < c, sub.Continues j)
    (hc : ¬ sub.Continues c) (hac : (sub c).ac = 0) (hsize : (sub c).size = (sub 0).size) :
    ∃ r, addSegment (sub c) request (sub.mem (coSdoReqInit m) a c) (sub.locals a c) (c + 1) = .stop r
      ∧ sub.Ends request m c r := by
  have hfresh' : (coSdoReqInit m).block a = none := hfresh
  by_cases hfits : sub.Fits c
  . rw [addSegment_fits hfresh' (Sub.length_segments hlt) hfits]
    split
    next heq =>
      have hlen := Sub.length_segments_completes hlt ⟨hfits, heq⟩
      refine ⟨_, rfl, fun _ => ⟨hlen, _, _, rfl, .inr ⟨a, rfl, hfresh, ?_⟩⟩, fun h => ?_⟩
      . have hdone : (sub 0).size - sub.offset (c + 1) = 0 := by simp [Sub.offset, heq]
        simp [Sub.mem, hdone, coSdoReqFini, coSdoReqInit, Mem.hold]
      . exact absurd ⟨hfits, heq⟩ h
    next hne =>
      have hz : (sub c).nbyte = 0 := by
        by_contra hpos
        exact hc ⟨hfits, hpos, Nat.lt_of_le_of_ne hfits.le hne⟩
      rw [if_pos hz]
      exact ⟨_, rfl, fun h => absurd h.eq hne, fun _ => .inl ⟨hfits, rfl⟩⟩
  . rw [addSegment_unfit hfresh' hac hsize (Sub.offset_le hlt) hfits]
    exact ⟨_, rfl, fun h => absurd h.toFits hfits, fun _ => .inr (.inl ⟨hfits, hac, rfl⟩)⟩

/-- The last pass over a block that is there already. -/
theorem pass_ends (hfresh : m.block a = none) (hlt : ∀ j < c, sub.Continues j)
    (hc : ¬ sub.Continues c) :
    ∃ r, pass al (sub c) request (sub.mem (coSdoReqInit m) a c) (sub.locals a c) (c + 1) = .stop r
      ∧ sub.Ends request m c r := by
  have hfresh' : (coSdoReqInit m).block a = none := hfresh
  rw [pass_locals]
  split
  next hac =>
    exact ⟨_, giveUp_mem hfresh' _, fun h => absurd h.ac hac, fun _ => .inr (.inr ⟨hac, rfl⟩)⟩
  next hac =>
    split
    next hsize =>
      refine ⟨_, giveUp_mem hfresh' _, fun h => absurd h.size hsize, fun _ => ?_⟩
      exact .inr (.inl ⟨fun h => hsize h.size, Decidable.not_not.mp hac, rfl⟩)
    next hsize =>
      exact addSegment_ends hfresh hlt hc (Decidable.not_not.mp hac) (Decidable.not_not.mp hsize)

/-- A pass over an answer that continues goes on to the next one. -/
theorem pass_continues {k : Nat} (hfresh : m.block a = none) (hlt : ∀ j < k, sub.Continues j)
    (hk : sub.Continues k) :
    addSegment (sub k) request (sub.mem m a k) (sub.locals a k) (k + 1)
      = .again (sub.mem m a (k + 1)) (sub.locals a (k + 1)) := by
  rw [addSegment_fits hfresh (Sub.length_segments hlt) hk.toFits,
    if_neg (Nat.ne_of_lt hk.lt), if_neg hk.pos]

/-- The loop over a block runs to the first answer that does not continue. -/
theorem readLoop_ends (hfresh : m.block a = none) (hlt : ∀ j < c, sub.Continues j)
    (hc : ¬ sub.Continues c) (fuel k : Nat) (hk : k ≤ c) (hfuel : c - k < fuel) :
    sub.Ends request m c
      (readLoop al sub request fuel k (sub.mem (coSdoReqInit m) a k) (sub.locals a k)) := by
  induction fuel generalizing k with
  | zero => omega
  | succ fuel ih =>
    rcases Nat.lt_or_eq_of_le hk with hkc | rfl
    . have hcont := hlt k hkc
      have hpass := @pass_continues _ _ request (coSdoReqInit m) _ _ hfresh
        (fun j hj => hlt j (Nat.lt_trans hj hkc)) hcont
      simp only [readLoop, pass_locals, hcont.ac, hcont.size, ne_eq, not_true_eq_false, if_false,
        hpass]
      exact ih (k + 1) hkc (by omega)
    . obtain ⟨r, hr, hends⟩ := @pass_ends _ _ al request _ _ _ hfresh hlt hc
      simpa only [readLoop, hr] using hends

/-- A block of `n` bytes is full after at most `n` answers that continue. -/
theorem Sub.exists_end (sub : Sub w) :
    ∃ c ≤ (sub 0).size, (∀ j < c, sub.Continues j) ∧ ¬ sub.Continues c := by
  classical
  have hex : ∃ c, ¬ sub.Continues c := by
    by_contra hall
    simp only [not_exists, Decidable.not_not] at hall
    have hle := le_offset (k := (sub 0).size + 1) fun j _ => hall j
    have hsize := offset_le (k := (sub 0).size + 1) fun j _ => hall j
    omega
  have hlt : ∀ j < Nat.find hex, sub.Continues j := fun j hj =>
    Decidable.not_not.mp (Nat.find_min hex hj)
  exact ⟨Nat.find hex, Nat.le_trans (le_offset hlt) (offset_le hlt), hlt, Nat.find_spec hex⟩

/-- There is no place for the block. -/
def Sub.Refused (sub : Sub w) (al : Allocator) (m : Mem) : Prop :=
  (sub 0).ac = 0 ∧ (sub 0).size ≠ 0 ∧ al.place (coSdoReqInit m) (sub 0).size = none

/-- Nothing is added to a block that the first answer does not ask for. -/
theorem addSegment_empty (hac : (sub 0).ac = 0) (hsize : (sub 0).size = 0) :
    ∃ r, addSegment (sub 0) request (coSdoReqInit m) ⟨none, 0, 0⟩ 1 = .stop r
      ∧ sub.Ends request m 0 r := by
  by_cases hfits : sub.Fits 0
  . have hz : (sub 0).nbyte = 0 := by
      have := hfits.le
      omega
    have hoff : (sub 0).offset = 0 := hfits.offset
    have hlen := @Sub.length_segments_completes _ sub 0 (by simp)
      ⟨hfits, by simp [Sub.offset, hz, hsize]⟩
    refine ⟨.returned .ok { request with output := none, outputSize := 0 } m 1, ?_, fun _ => ?_,
      fun h => absurd ⟨hfits, by simp [Sub.offset, hz, hsize]⟩ h⟩
    . simp [addSegment, Answer.last, deliver, hz, hoff, hsize]
    . exact ⟨hlen, none, m, by rw [hsize], .inl ⟨rfl, hsize, rfl⟩⟩
  . have hbad : (sub 0).offset ≠ 0 ∨ (0 : Nat) > 0 ∨ (sub 0).nbyte > 0 - 0
        ∨ (sub 0).nbyte ≠ 0 ∧ (sub 0).buf.isNone := by
      by_contra hgood
      simp only [not_or, not_and, Decidable.not_not] at hgood
      obtain ⟨hoff, -, hn, -⟩ := hgood
      refine hfits ⟨hac, rfl, hoff, fun hne => absurd ?_ hne, ?_⟩
      . omega
      . simp only [Sub.offset]
        omega
    refine ⟨_, ?_, fun h => absurd h.toFits hfits, fun _ => .inr (.inl ⟨hfits, hac, rfl⟩)⟩
    unfold addSegment
    rw [if_pos hbad]
    rfl

/-- The whole loop, if there is a place for the block. -/
theorem readLoop_spec (hlt : ∀ j < c, sub.Continues j) (hc : ¬ sub.Continues c)
    (hplace : ¬ sub.Refused al m) (fuel : Nat) (hfuel : c < fuel) :
    sub.Ends request m c (readLoop al sub request fuel 0 (coSdoReqInit m) ⟨none, 0, 0⟩) := by
  obtain ⟨fuel, rfl⟩ := Nat.exists_eq_succ_of_ne_zero (Nat.ne_of_gt (Nat.zero_lt_of_lt hfuel))
  have hzero (h : ¬ sub.Continues 0) : c = 0 := by
    by_contra hpos
    exact h (hlt 0 (Nat.pos_of_ne_zero hpos))
  by_cases hac : (sub 0).ac = 0
  . by_cases hsize : (sub 0).size = 0
    . obtain rfl := hzero fun h => Nat.not_lt_zero _ (hsize ▸ h.lt)
      obtain ⟨r, hr, hends⟩ := @addSegment_empty _ _ request m hac hsize
      have hpass : pass al (sub 0) request (coSdoReqInit m) ⟨none, 0, 0⟩ 1 = .stop r := by
        simp [pass, hac, hsize, hr]
      simpa only [readLoop, hpass] using hends
    . obtain ⟨a, ha⟩ : ∃ a, al.place (coSdoReqInit m) (sub 0).size = some a := by
        by_contra hnone
        exact hplace ⟨hac, hsize, by simpa [Option.eq_none_iff_forall_ne_some] using hnone⟩
      have hfresh : (coSdoReqInit m).block a = none := al.fresh ha
      -- the block is there from the first pass on
      have hfirst : readLoop al sub request (fuel + 1) 0 (coSdoReqInit m) ⟨none, 0, 0⟩
          = readLoop al sub request (fuel + 1) 0 (sub.mem (coSdoReqInit m) a 0)
              (sub.locals a 0) := by
        simp only [readLoop, pass_first hac hsize ha, pass_locals, hac, ne_eq, not_true_eq_false,
          if_false]
      rw [hfirst]
      exact readLoop_ends (m := m) hfresh hlt hc (fuel + 1) 0 (Nat.zero_le _) (by omega)
  . obtain rfl := hzero fun h => hac h.ac
    refine ⟨fun h => absurd h.ac hac, fun _ => .inr (.inr ⟨hac, ?_⟩)⟩
    simp only [readLoop, pass, ne_eq, hac, not_false_eq_true, if_true]
    rfl

theorem readLoop_refused (h : sub.Refused al m) (fuel : Nat) (hfuel : 0 < fuel) :
    readLoop al sub request fuel 0 (coSdoReqInit m) ⟨none, 0, 0⟩
      = .returned .nomem request m 1 := by
  obtain ⟨fuel, rfl⟩ := Nat.exists_eq_succ_of_ne_zero (Nat.ne_of_gt hfuel)
  obtain ⟨hac, hsize, hplace⟩ := h
  simp [readLoop, pass, hac, hsize, rtMalloc_eq_none.mpr hplace, giveUp, rtFree]

theorem readOwner_missing {dict : Dict w} {ac : BitVec 32} (h : findSub dict request = .error ac)
    (fuel : Nat) :
    readOwner al dict fuel request m
      = .returned .error { request with abortCode := ac } m 0 := by
  simp only [readOwner, h]

theorem readOwner_refused {dict : Dict w} (h : findSub dict request = .ok sub)
    (hrefused : sub.Refused al m) (fuel : Nat) (hfuel : 0 < fuel) :
    readOwner al dict fuel request m = .returned .nomem request m 1 := by
  simpa only [readOwner, h] using readLoop_refused hrefused fuel hfuel

theorem readOwner_placed {dict : Dict w} (h : findSub dict request = .ok sub)
    (hplace : ¬ sub.Refused al m) :
    ∃ c, (∀ n, sub.Declares n → c ≤ n) ∧ (∀ j < c, sub.Continues j) ∧ ¬ sub.Continues c
      ∧ ∀ fuel > c, sub.Ends request m c (readOwner al dict fuel request m) := by
  obtain ⟨c, hle, hlt, hc⟩ := sub.exists_end
  refine ⟨c, fun n hn => ?_, hlt, hc, fun fuel hfuel => ?_⟩
  . by_cases hsize : (sub 0).size = 0
    . omega
    . exact hn.eq hsize ▸ hle
  . simpa only [readOwner, h] using readLoop_spec hlt hc hplace fuel hfuel

end

/-- A read that fails gives the caller nothing and leaves the memory as it was. -/
theorem runtimeLocalOdRead_error (al : Allocator) (masterDev : Option (Dict w))
    (submit : Option RtErr) (index subindex : Nat) (out : Option Nat × Nat) (m : Mem) :
    ∃ calls, ∀ fuel > calls, ∃ err out' m',
      runtimeLocalOdRead al masterDev submit fuel index subindex out m = some (err, out', m')
      ∧ (err ≠ .ok → out' = out ∧ m' = m) := by
  by_cases hindex : index < indexMin ∨ index > indexMax
  . exact ⟨0, fun fuel _ => ⟨.inval, out, m, by simp only [runtimeLocalOdRead, if_pos hindex],
      fun _ => ⟨rfl, rfl⟩⟩⟩
  unfold runtimeLocalOdRead
  simp only [if_neg hindex]
  cases submit with
  | some err => exact ⟨0, fun fuel _ => ⟨err, out, m, rfl, fun _ => ⟨rfl, rfl⟩⟩⟩
  | none =>
    cases masterDev with
    | none => exact ⟨0, fun fuel _ => ⟨.busy, out, m, rfl, fun _ => ⟨rfl, rfl⟩⟩⟩
    | some dict =>
      simp only [dispatch]
      cases hfind : findSub dict ⟨index, subindex, 0, none, 0⟩ with
      | error ac =>
        refine ⟨0, fun fuel _ => ?_⟩
        rw [readOwner_missing hfind fuel]
        exact ⟨.error, out, m, rfl, fun _ => ⟨rfl, rfl⟩⟩
      | ok sub =>
        by_cases hr : sub.Refused al m
        . refine ⟨0, fun fuel hfuel => ?_⟩
          rw [readOwner_refused hfind hr fuel hfuel]
          exact ⟨.nomem, out, m, rfl, fun _ => ⟨rfl, rfl⟩⟩
        . obtain ⟨c, -, -, -, hends⟩ := readOwner_placed hfind hr
          refine ⟨c, fun fuel hfuel => ?_⟩
          by_cases hc : sub.Completes c
          . obtain ⟨-, output, m', hres, -⟩ := (hends fuel hfuel).1 hc
            rw [hres]
            exact ⟨.ok, _, m', rfl, fun h => absurd rfl h⟩
          . rcases (hends fuel hfuel).2 hc with ⟨-, hres⟩ | ⟨-, -, hres⟩ | ⟨-, hres⟩
            . rw [hres]
              exact ⟨.nosys, out, m, rfl, fun _ => ⟨rfl, rfl⟩⟩
            . rw [hres]
              exact ⟨.error, out, m, rfl, fun _ => ⟨rfl, rfl⟩⟩
            . rw [hres]
              exact ⟨.error, out, m, rfl, fun _ => ⟨rfl, rfl⟩⟩

/--
A read runs to the first answer that is not a segment with more to follow, after at most one call
more than the size that is declared, and never copies beyond the block. It succeeds if that answer
completes the segments, whose bytes are then the output, and changes nothing else. Otherwise it
fails, with the memory and the output as they were.
-/
theorem read_owner_exact (al : Allocator) (dict : Dict w) (request : Request) (m : Mem) :
    (∀ ac, findSub dict request = .error ac → ∀ fuel,
      readOwner al dict fuel request m = .returned .error { request with abortCode := ac } m 0)
    ∧ ∀ sub, findSub dict request = .ok sub →
      (sub.Refused al m → ∀ fuel > 0,
        readOwner al dict fuel request m = .returned .nomem request m 1)
      ∧ (¬ sub.Refused al m →
        ∃ c, (∀ n, sub.Declares n → c ≤ n) ∧ (∀ j < c, sub.Continues j) ∧ ¬ sub.Continues c
          ∧ ∀ fuel > c, sub.Ends request m c (readOwner al dict fuel request m)) := by
  exact ⟨fun ac h fuel => readOwner_missing h fuel, fun sub h =>
    ⟨fun hrefused fuel hfuel => readOwner_refused h hrefused fuel hfuel, readOwner_placed h⟩⟩

/-- The answers of a sub-object with four bytes in two segments. -/
def twoSegments : Sub 32
  | 0 => ⟨0, 4, 2, 0, some fun i => .ofNat (i + 1), by decide, by decide, by decide⟩
  | _ + 1 => ⟨0, 4, 2, 2, some fun i => .ofNat (i + 3), by decide, by decide, by decide⟩

/-- An allocator with one address. -/
def oneBlock : Allocator where
  place := fun m _ => if (m.block 0).isNone then some 0 else none
  fresh := by
    intro m n a h
    split at h
    next hnone =>
      cases h
      simpa using hnone
    next => cases h

theorem read_owner_exact_two :
    ∃ a m, readOwner oneBlock (fun _ => some ⟨7, 0, fun _ => some twoSegments⟩) 2
        ⟨0x2000, 0, 0, none, 0⟩ ⟨fun _ => none, 0⟩
          = .returned .ok ⟨0x2000, 0, 0, some a, 4⟩ m 2
      ∧ m.block a = some [some 1, some 2, some 3, some 4] := by
  have hfind : findSub (fun _ => some ⟨7, 0, fun _ => some twoSegments⟩)
      ⟨0x2000, 0, 0, none, 0⟩ = .ok twoSegments := rfl
  obtain ⟨c, -, hlt, hc, hends⟩ := ((read_owner_exact oneBlock _ _ ⟨fun _ => none, 0⟩).2 _
    hfind).2 (fun h => nomatch h.2.2)
  have hfirst : twoSegments.Continues 0 := ⟨⟨rfl, rfl, rfl, fun _ => rfl, by decide⟩, by decide,
    by decide⟩
  have hlast : twoSegments.Completes 1 := ⟨⟨rfl, rfl, rfl, fun _ => rfl, by decide⟩, rfl⟩
  obtain rfl : c = 1 := by
    rcases Nat.lt_trichotomy c 1 with h | h | h
    . obtain rfl : c = 0 := Nat.lt_one_iff.mp h
      exact absurd hfirst hc
    . exact h
    . exact absurd (hlt 1 h).lt (Nat.not_lt_of_le (Nat.le_of_eq hlast.eq.symm))
  obtain ⟨-, output, m, hr, ⟨-, hsize, -⟩ | ⟨a, rfl, -, rfl⟩⟩ := (hends 2 (by decide)).1 hlast
  . cases hsize
  . exact ⟨a, _, hr, hold_block _ _⟩

end LelyRtt.LocalOd
