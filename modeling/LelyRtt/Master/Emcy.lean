import LelyRtt.Basic
import LelyRtt.Conc.Snapshot
import Mathlib.Data.List.Basic

/-!
This module contains the history of received EMCY messages, a ring of slots that the owner publishes
through one sequence lock each and the application scans from the newest event to older ones.
-/

namespace LelyRtt.Emcy

open Conc

/-- What `lely_rtt_master_emcy_publish` gets. It ignores messages with other node identifiers. -/
structure Input where
  node : BitVec 8
  errorCode : BitVec 16
  errorRegister : BitVec 8
  manufacturer : Option (Fin 5 → BitVec 8)
  node_pos : node ≠ 0
  node_le : node.toNat ≤ numNodes

/-- `struct lely_rtt_emcy_event` -/
@[ext]
structure Event where
  node : BitVec 8
  errorCode : BitVec 16
  errorRegister : BitVec 8
  manufacturer : Fin 5 → BitVec 8
  sequence : BitVec 32

/-- `lely_rtt_master_emcy_pack` -/
def pack (node : BitVec 8) (errorCode : BitVec 16) (errorRegister : BitVec 8) : BitVec 32 :=
  node.setWidth 32 ||| errorCode.setWidth 32 <<< 8 ||| errorRegister.setWidth 32 <<< 24

/-- `lely_rtt_master_emcy_prev_sequence` -/
def prevSequence (sequence : BitVec 32) : BitVec 32 :=
  if sequence > 1#32 then sequence - 1#32 else 0#32

/-- The sequence number after the latest one. -/
def nextSequence (latest : BitVec 32) : BitVec 32 :=
  let sequence := latest + 1#32
  if sequence = 0#32 then 1#32 else sequence

/-- The index of the slot of a sequence number, with `PKG_LELY_MASTER_EMCY_HISTORY_DEPTH` slots. -/
def slotOf (depth : Nat) (sequence : BitVec 32) : Nat := (sequence - 1#32).toNat % depth

/-- The first four manufacturer bytes. -/
def Input.msefLo (e : Input) : BitVec 32 :=
  match e.manufacturer with
  | none => 0#32
  | some f => (f 0).setWidth 32 ||| (f 1).setWidth 32 <<< 8 ||| (f 2).setWidth 32 <<< 16
      ||| (f 3).setWidth 32 <<< 24

/-- The fifth manufacturer byte. -/
def Input.msefHi (e : Input) : BitVec 32 :=
  match e.manufacturer with
  | none => 0#32
  | some f => (f 4).setWidth 32

/-- The stores of `lely_rtt_master_emcy_publish`. -/
def emcyPublish (depth : Nat) : Layout Nat Input where
  cell := fun latest _ => slotOf depth (nextSequence latest)
  data := fun latest e =>
    [nextSequence latest, pack e.node e.errorCode e.errorRegister, e.msefLo, e.msefHi]
  mark := fun latest _ => some (nextSequence latest)
  size := 4
  length_data := fun _ _ => rfl

/-- The event that `lely_rtt_runtime_get_emcy` makes of the words of a slot. -/
def unpack (got : List (BitVec 32)) : Event where
  node := (got.getD 1 0).setWidth 8
  errorCode := (got.getD 1 0 >>> 8).setWidth 16
  errorRegister := (got.getD 1 0 >>> 24).setWidth 8
  manufacturer := fun i =>
    if i.val < 4 then (got.getD 2 0 >>> (8 * i.val)).setWidth 8 else (got.getD 3 0).setWidth 8
  sequence := got.getD 0 0

/--
`lely_rtt_runtime_get_emcy`: before the load of the latest sequence, before the load of the guard of
the slot of a candidate, and after it. `remaining` counts the candidates after this one.
-/
inductive Getter where
  | start
  | guard (candidate : BitVec 32) (remaining : Nat)
  | loading (candidate : BitVec 32) (remaining : Nat) (b : BitVec 32) (got : List (BitVec 32))
  | done (r : Option Event)

/-- The condition of the loop over the candidates. Without a retry the loop ends in `-RT_EBUSY`. -/
def enter (candidate : BitVec 32) (remaining : Nat) : Getter :=
  if remaining ≠ 0 ∧ candidate ≠ 0#32 then
    .guard candidate (remaining - 1)
  else
    .done none

/-- `lely_rtt_runtime_get_emcy` for the node `node`. -/
def getEmcy (depth : Nat) (node : BitVec 8) : Reader Nat Getter where
  load
    | .start => some .mark
    | .guard candidate _ => some (.guard (slotOf depth candidate))
    | .loading candidate _ _ got =>
      let slot := slotOf depth candidate
      some (if got.length < 4 then .data slot got.length else .guard slot)
    | .done _ => none
  next
    | .start, latest => if latest = 0#32 then .done none else enter latest depth
    | .guard candidate remaining, v =>
      if v = 0#32 then
        .done none
      else if Guard.isOdd v then
        .start
      else
        .loading candidate remaining v []
    | .loading candidate remaining b got, v =>
      if got.length < 4 then
        .loading candidate remaining b (got ++ [v])
      else if b ≠ v ∨ Guard.isOdd v then
        .start
      else if got.getD 0 0 ≠ candidate then
        .start
      else if node = 0#8 ∨ (unpack got).node = node then
        .done (some (unpack got))
      else
        enter (prevSequence candidate) remaining
    | .done r, _ => .done r

/-- The number of sequence numbers before they start again at one. -/
def epoch : Nat := 2 ^ 32 - 1

/-- The event that a publication stands for. -/
def event (p : Publication Nat Input) : Event where
  node := p.event.node
  errorCode := p.event.errorCode
  errorRegister := p.event.errorRegister
  manufacturer := p.event.manufacturer.getD fun _ => 0
  sequence := p.data.getD 0 0

/-- The last events of the current epoch, as many as there are slots, from the newest one on. -/
def recent (depth : Nat) (ps : List (Publication Nat Input)) : List (Publication Nat Input) :=
  ps.reverse.take (min depth ((ps.length - 1) % epoch + 1))

/-- What a read finds among the last events. -/
def newest (depth : Nat) (node : BitVec 8) (ps : List (Publication Nat Input)) : Option Event :=
  ((recent depth ps).find? fun p => node = 0#8 ∨ p.event.node = node).map event

/-- The sequence number of the event number `k`, counted from one. -/
def seqOf : Nat → BitVec 32
  | 0 => 0#32
  | k + 1 => .ofNat 32 (k % epoch + 1)

/-- The index of the slot of the event with index `i`. -/
def slotAt (depth i : Nat) : Nat := i % epoch % depth

theorem mod_epoch_lt (i : Nat) : i % epoch < epoch := Nat.mod_lt _ (by decide)

theorem toNat_seqOf (k : Nat) : (seqOf (k + 1)).toNat = k % epoch + 1 := by
  have hlt := mod_epoch_lt k
  simp only [seqOf, BitVec.toNat_ofNat]
  unfold epoch at *
  omega

theorem seqOf_ne_zero (k : Nat) : seqOf (k + 1) ≠ 0#32 := by
  intro h
  have := congrArg BitVec.toNat h
  rw [toNat_seqOf] at this
  cases this

theorem seqOf_inj {i j : Nat} (h : seqOf (i + 1) = seqOf (j + 1)) : i % epoch = j % epoch := by
  have := congrArg BitVec.toNat h
  rw [toNat_seqOf, toNat_seqOf] at this
  exact Nat.succ.inj this

theorem nextSequence_seqOf (k : Nat) : nextSequence (seqOf k) = seqOf (k + 1) := by
  cases k with
  | zero => rfl
  | succ k =>
    have hlt := mod_epoch_lt k
    have hmod : (k + 1) % epoch = (k % epoch + 1) % epoch := (Nat.mod_add_mod _ _ _).symm
    apply BitVec.eq_of_toNat_eq
    rw [toNat_seqOf, hmod]
    simp only [nextSequence, ← BitVec.toNat_inj, apply_ite BitVec.toNat, BitVec.toNat_add,
      toNat_seqOf, BitVec.toNat_ofNat]
    generalize k % epoch = r at *
    unfold epoch at *
    split <;> omega

theorem slotOf_seqOf (depth k : Nat) : slotOf depth (seqOf (k + 1)) = slotAt depth k := by
  have hlt := mod_epoch_lt k
  have hsub : (seqOf (k + 1) - 1#32).toNat = k % epoch := by
    rw [BitVec.toNat_sub, toNat_seqOf, BitVec.toNat_ofNat]
    generalize k % epoch = r at *
    unfold epoch at *
    omega
  rw [slotOf, hsub, slotAt]

theorem prevSequence_seqOf (k : Nat)
    : prevSequence (seqOf (k + 1)) = if k % epoch = 0 then 0#32 else seqOf k := by
  have hlt := mod_epoch_lt k
  cases k with
  | zero => rfl
  | succ k =>
    have hmod : (k + 1) % epoch = (k % epoch + 1) % epoch := (Nat.mod_add_mod _ _ _).symm
    have hlt' := mod_epoch_lt k
    apply BitVec.eq_of_toNat_eq
    simp only [prevSequence, gt_iff_lt, BitVec.lt_def, apply_ite BitVec.toNat, BitVec.toNat_sub,
      toNat_seqOf, BitVec.toNat_ofNat, hmod] at *
    generalize k % epoch = r at *
    unfold epoch at *
    split <;> split <;> omega

section

variable {n : Nat} (x : BitVec n)

/-- A part of a word that was shifted to a place is found there again. -/
theorem place_self {k i : Nat} (hlt : k + i < 32)
    : (x.setWidth 32 <<< k).getLsbD (k + i) = x.getLsbD i := by
  have hge : ¬ k + i < k := by omega
  simp [hlt, hge]

theorem place_other {k l i : Nat} (h : l + i < k ∨ n + k ≤ l + i)
    : (x.setWidth 32 <<< k).getLsbD (l + i) = false := by
  rw [BitVec.getLsbD_shiftLeft, BitVec.getLsbD_setWidth]
  rcases h with h | h
  . simp [h]
  . rw [BitVec.getLsbD_of_ge x _ (by omega)]
    simp

end

/-- A word of four bytes. -/
theorem byte_of_word (a b c d : BitVec 8) (k : Nat) (hk : k < 4)
    : ((a.setWidth 32 <<< 0 ||| b.setWidth 32 <<< 8 ||| c.setWidth 32 <<< 16
        ||| d.setWidth 32 <<< 24) >>> (8 * k)).setWidth 8
      = match k with
        | 0 => a
        | 1 => b
        | 2 => c
        | _ => d := by
  apply BitVec.eq_of_getLsbD_eq
  intro i hi
  simp only [BitVec.getLsbD_setWidth, BitVec.getLsbD_ushiftRight, BitVec.getLsbD_or, hi,
    decide_true, Bool.true_and]
  match k with
  | 0 =>
    rw [place_self a (by omega), place_other b (by omega), place_other c (by omega),
      place_other d (by omega), Bool.or_false, Bool.or_false, Bool.or_false]
    rfl
  | 1 =>
    rw [place_other a (by omega), place_self b (by omega), place_other c (by omega),
      place_other d (by omega), Bool.or_false, Bool.or_false, Bool.false_or]
    rfl
  | 2 =>
    rw [place_other a (by omega), place_other b (by omega), place_self c (by omega),
      place_other d (by omega), Bool.or_false, Bool.or_false, Bool.false_or]
    rfl
  | 3 =>
    rw [place_other a (by omega), place_other b (by omega), place_other c (by omega),
      place_self d (by omega), Bool.or_false, Bool.or_false, Bool.false_or]
    rfl

section

variable (node : BitVec 8) (code : BitVec 16) (register : BitVec 8)

theorem pack_node : (pack node code register).setWidth 8 = node := by
  ext i hi
  simp [pack]

theorem pack_code : (pack node code register >>> 8).setWidth 16 = code := by
  apply BitVec.eq_of_getLsbD_eq
  intro i hi
  simp only [pack, BitVec.getLsbD_setWidth, BitVec.getLsbD_ushiftRight, BitVec.getLsbD_or, hi,
    decide_true, Bool.true_and]
  rw [BitVec.getLsbD_of_ge node _ (by omega), place_self code (by omega),
    place_other register (by omega), Bool.and_false, Bool.false_or, Bool.or_false]

theorem pack_register : (pack node code register >>> 24).setWidth 8 = register := by
  apply BitVec.eq_of_getLsbD_eq
  intro i hi
  simp only [pack, BitVec.getLsbD_setWidth, BitVec.getLsbD_ushiftRight, BitVec.getLsbD_or, hi,
    decide_true, Bool.true_and]
  rw [BitVec.getLsbD_of_ge node _ (by omega), place_other code (by omega),
    place_self register (by omega), Bool.and_false, Bool.false_or, Bool.false_or]

end

/-- The manufacturer bytes of the words of an event. -/
theorem unpack_manufacturer (e : Input) (x y : BitVec 32)
    : (unpack [x, y, e.msefLo, e.msefHi]).manufacturer = e.manufacturer.getD fun _ => 0 := by
  have hbyte (i : Fin 5) : (unpack [x, y, e.msefLo, e.msefHi]).manufacturer i
      = if i.val < 4 then (e.msefLo >>> (8 * i.val)).setWidth 8 else e.msefHi.setWidth 8 := rfl
  funext i
  rw [hbyte]
  cases hm : e.manufacturer with
  | none => simp [Input.msefLo, Input.msefHi, hm]
  | some f =>
    have hword : e.msefLo = (f 0).setWidth 32 <<< 0 ||| (f 1).setWidth 32 <<< 8
        ||| (f 2).setWidth 32 <<< 16 ||| (f 3).setWidth 32 <<< 24 := by
      simp [Input.msefLo, hm]
    have hlast : e.msefHi = (f 4).setWidth 32 := by
      simp [Input.msefHi, hm]
    rw [hword, hlast, Option.getD_some]
    split
    next hlt =>
      rw [byte_of_word _ _ _ _ _ hlt]
      obtain ⟨i, hi⟩ := i
      match i with
      | 0 | 1 | 2 | 3 => rfl
    next hlt =>
      obtain rfl : i = 4 := Fin.ext (by omega)
      simp

/-- The reader gets the event back from the words that the owner stored for it. -/
theorem unpack_data {p : Publication Nat Input} {sequence : BitVec 32}
    (h : p.data = [sequence, pack p.event.node p.event.errorCode p.event.errorRegister,
      p.event.msefLo, p.event.msefHi])
    : unpack p.data = event p := by
  ext1
  . simpa [h, unpack, event] using pack_node _ _ _
  . simpa [h, unpack, event] using pack_code _ _ _
  . simpa [h, unpack, event] using pack_register _ _ _
  . rw [h, unpack_manufacturer]
    rfl
  . rfl

section

variable {depth : Nat} {ps : List (Publication Nat Input)} {p : Publication Nat Input}

theorem markAfter_ordered (h : Publisher.Ordered (emcyPublish depth) ps)
    : Publisher.markAfter ps = seqOf ps.length := by
  induction ps using List.reverseRecOn with
  | nil => rfl
  | append_singleton ps p ih =>
    have hp := h ps p [] rfl
    rw [Publisher.markAfter_concat, hp, List.length_append]
    simp only [Publisher.place, emcyPublish, Option.getD_some, ih h.of_concat, nextSequence_seqOf,
      List.length_singleton]

/-- What the owner stores for the event with index `i`. -/
theorem get_ordered (h : Publisher.Ordered (emcyPublish depth) ps) {i : Nat} (hp : ps[i]? = some p)
    : p.cell = slotAt depth i ∧ p.mark = some (seqOf (i + 1))
      ∧ p.data = [seqOf (i + 1), pack p.event.node p.event.errorCode p.event.errorRegister,
        p.event.msefLo, p.event.msefHi] := by
  obtain ⟨hi, rfl⟩ := List.getElem?_eq_some_iff.mp hp
  have hsplit : ps = ps.take i ++ ps[i] :: ps.drop (i + 1) := by
    rw [← List.drop_eq_getElem_cons hi, List.take_append_drop]
  have hplace := h _ _ _ hsplit
  have hmark : Publisher.markAfter (ps.take i) = seqOf i := by
    rw [markAfter_ordered fun l q r heq => h l q (r ++ ps[i] :: ps.drop (i + 1))
      (by rw [← List.cons_append, ← List.append_assoc, ← heq, ← hsplit]), List.length_take,
      Nat.min_eq_left (Nat.le_of_lt hi)]
  generalize ps[i] = p at *
  rw [hplace]
  simp only [Publisher.place, emcyPublish, hmark, nextSequence_seqOf, slotOf_seqOf, and_self]

end

section

variable {depth : Nat} {ps : List (Publication Nat Input)} {p : Publication Nat Input}
  {w : Publisher Nat Input}

theorem withMark_ordered (h : Publisher.Ordered (emcyPublish depth) ps) : Publisher.withMark ps = ps := by
  apply List.filter_eq_self.mpr
  intro q hq
  obtain ⟨i, hi⟩ := List.getElem?_of_mem hq
  simp [(get_ordered h hi).2.1]

/-- The latest sequence number is the one of the last event whose publication is complete. -/
theorem mark_eq (h : w.Inv (emcyPublish depth))
    : w.mem .mark = seqOf w.marked.length ∧ w.marked <+: w.closed := by
  have hclosed : Publisher.Ordered (emcyPublish depth) w.closed := by
    obtain ⟨r, hr⟩ := h.closed_le
    exact fun l q r' heq => h.ordered l q (r' ++ r) (by rw [← hr, heq]; simp)
  have hsame (hm : w.marked = Publisher.withMark w.closed)
      (hmark : w.mem .mark = Publisher.markAfter w.closed)
      : w.mem .mark = seqOf w.marked.length ∧ w.marked <+: w.closed := by
    rw [hm, withMark_ordered hclosed, hmark, markAfter_ordered hclosed]
    exact ⟨rfl, List.prefix_rfl⟩
  cases h.phase with
  | idle _ _ marked mark => exact hsame marked mark
  | ready _ _ _ _ marked mark => exact hsame marked mark
  | writing _ _ _ _ _ marked mark => exact hsame marked mark
  | marking qs q v _ _ _ _ closed marked mark =>
    have hqs : Publisher.Ordered (emcyPublish depth) qs := (closed ▸ hclosed).of_concat
    rw [mark, marked, withMark_ordered hqs, markAfter_ordered hqs, closed]
    exact ⟨rfl, List.prefix_append _ _⟩

/-- The last publication of a slot is not before any other one of the slot. -/
theorem last_in_slot {i c : Nat} {x : Publication Nat Input} (hx : ps[i]? = some x)
    (hcell : x.cell = c) (hp : (Publisher.within c ps).getLast? = some p)
    : ∃ j, i ≤ j ∧ ps[j]? = some p := by
  induction ps using List.reverseRecOn with
  | nil => simp at hx
  | append_singleton qs q ih =>
    have hi : i ≤ qs.length := by
      have := (List.getElem?_eq_some_iff.mp hx).1
      simp only [List.length_append, List.length_singleton] at this
      omega
    by_cases hq : q.cell = c
    . rw [Publisher.within_append, ← hq, Publisher.within_self, List.getLast?_concat] at hp
      cases hp
      exact ⟨qs.length, hi, List.getElem?_concat_length⟩
    . have hne : i ≠ qs.length := by
        rintro rfl
        rw [List.getElem?_concat_length] at hx
        cases hx
        exact hq hcell
      rw [Publisher.within_append, Publisher.within_ne (fun h => hq h.symm), List.append_nil] at hp
      have hlt : i < qs.length := Nat.lt_of_le_of_ne hi hne
      rw [List.getElem?_append_left hlt] at hx
      obtain ⟨j, hij, hj⟩ := ih hx hp
      exact ⟨j, hij, by rw [List.getElem?_append_left (List.getElem?_eq_some_iff.mp hj).1, hj]⟩

end

section

variable {depth : Nat} {node : BitVec 8}

/-- The condition of a read. -/
def Matches (node : BitVec 8) (p : Publication Nat Input) : Prop :=
  node = 0#8 ∨ p.event.node = node

instance (p : Publication Nat Input) : Decidable (Matches node p) :=
  inferInstanceAs (Decidable (_ ∨ _))

/-- The newest `t` events of the history `m` do not match. -/
def Missed (node : BitVec 8) (m : List (Publication Nat Input)) (t : Nat) : Prop :=
  ∀ u < t, ∀ p, m[m.length - 1 - u]? = some p → ¬ Matches node p

/-- The candidate is `t` events behind the last one of the history `m`. -/
structure Tried (depth : Nat) (node : BitVec 8) (m : List (Publication Nat Input))
    (candidate : BitVec 32) (remaining t : Nat) : Prop where
  lt : t < m.length
  candidate : candidate = seqOf (m.length - 1 - t + 1)
  remaining : t + remaining + 1 = depth
  epoch : t ≤ (m.length - 1) % epoch
  missed : Missed node m t

theorem newest_eq_none {m : List (Publication Nat Input)}
    (h : Missed node m (min depth ((m.length - 1) % epoch + 1))) : newest depth node m = none := by
  rw [newest, Option.map_eq_none_iff, List.find?_eq_none]
  intro p hp
  obtain ⟨u, hu⟩ := List.getElem?_of_mem hp
  have hlt := (List.getElem?_eq_some_iff.mp hu).1
  simp only [recent, List.length_take, List.length_reverse, Nat.lt_min] at hlt
  rw [recent, List.getElem?_take_of_lt (Nat.lt_min.mpr hlt.1),
    List.getElem?_reverse hlt.2] at hu
  simpa [Matches] using h u (Nat.lt_min.mpr hlt.1) p hu

theorem newest_eq_some {m : List (Publication Nat Input)} {p : Publication Nat Input}
    {candidate : BitVec 32} {remaining t : Nat} (h : Tried depth node m candidate remaining t)
    (hp : m[m.length - 1 - t]? = some p) (hmatch : Matches node p)
    : newest depth node m = some (event p) := by
  have ht : t < min depth ((m.length - 1) % epoch + 1) := by
    have := h.remaining
    have := h.epoch
    omega
  have hget (u : Nat) (hu : u < min depth ((m.length - 1) % epoch + 1)) (hm : u < m.length)
      : (recent depth m)[u]? = m[m.length - 1 - u]? := by
    rw [recent, List.getElem?_take_of_lt hu, List.getElem?_reverse hm]
  rw [newest, Option.map_eq_some_iff]
  refine ⟨p, List.find?_eq_some_iff_getElem.mpr ⟨by simpa [Matches] using hmatch, t, ?_, ?_,
    fun u hu => ?_⟩, rfl⟩
  . rw [recent, List.length_take, List.length_reverse]
    exact Nat.lt_min.mpr ⟨ht, h.lt⟩
  . exact (List.getElem?_eq_some_iff.mp ((hget t ht h.lt).trans hp)).2
  . have hm : u < m.length := Nat.lt_trans hu h.lt
    have hu' : u < min depth ((m.length - 1) % epoch + 1) := Nat.lt_trans hu ht
    have hlt : u < (recent depth m).length := by
      rw [recent, List.length_take, List.length_reverse]
      exact Nat.lt_min.mpr ⟨hu', hm⟩
    have := h.missed u hu (recent depth m)[u]
      (by rw [← hget u hu' hm, List.getElem?_eq_getElem hlt])
    simpa [Matches] using this

/-- What the condition of the loop over the candidates leads to. -/
theorem enter_spec {m : List (Publication Nat Input)} {candidate : BitVec 32} {remaining t : Nat}
    (hpos : 0 < m.length) (hremaining : t + remaining = depth)
    (hle : t ≤ (m.length - 1) % epoch + 1)
    (hcandidate : candidate = if t ≤ (m.length - 1) % epoch then seqOf (m.length - 1 - t + 1) else 0#32)
    (hmissed : Missed node m t)
    : enter candidate remaining = .done none ∧ newest depth node m = none
      ∨ ∃ r, enter candidate remaining = .guard candidate r
        ∧ Tried depth node m candidate r t := by
  by_cases hcond : remaining ≠ 0 ∧ candidate ≠ 0#32
  . have ht : t ≤ (m.length - 1) % epoch := by
      by_contra hgt
      exact hcond.2 (by rw [hcandidate, if_neg hgt])
    have hlt : t < m.length := by
      have := Nat.mod_le (m.length - 1) epoch
      omega
    refine .inr ⟨remaining - 1, by rw [enter, if_pos hcond], hlt, ?_, by omega, ht, hmissed⟩
    rw [hcandidate, if_pos ht]
  . refine .inl ⟨by rw [enter, if_neg hcond], newest_eq_none ?_⟩
    have ht : t = min depth ((m.length - 1) % epoch + 1) := by
      by_cases hr : remaining = 0
      . omega
      . have hz : candidate = 0#32 := by
          by_contra hne
          exact hcond ⟨hr, hne⟩
        have : ¬ t ≤ (m.length - 1) % epoch := by
          intro hle'
          rw [hcandidate, if_pos hle'] at hz
          exact seqOf_ne_zero _ hz
        omega
    exact ht ▸ hmissed

end

/-! ### Scans -/

/-- The state in which a reader loads the latest sequence number, and those of the scan after it. -/
inductive Scan (depth : Nat) (node : BitVec 8) (s₁ : Sys Nat Input Getter) :
    Sys Nat Input Getter → Prop where
  | latest (h : s₁.reader = .start) : Scan depth node s₁ s₁
  | first (h : s₁.reader = .start) :
      Scan depth node s₁ { s₁ with reader := (getEmcy depth node).next .start (s₁.writer.mem .mark) }
  | step (s s' : Sys Nat Input Getter) (h : Scan depth node s₁ s) (hs : s.reader ≠ .start)
      (hstep : Sys.Step (emcyPublish depth) (getEmcy depth node) s s') (hs' : s'.reader ≠ .start) :
      Scan depth node s₁ s'

/--
A call of `lely_rtt_runtime_get_emcy` in `s₀` with its last load of the latest sequence number in
`s₁`, which returns `r` with the word that it loads in `s`.
-/
structure Call (depth : Nat) (node : BitVec 8) (s₀ s₁ s : Sys Nat Input Getter) (r : Option Event) :
    Prop where
  reachable : s₀.writer.Reachable (emcyPublish depth)
  start : s₀.reader = .start
  retries : Sys.Steps (emcyPublish depth) (getEmcy depth node) s₀ s₁
  scan : Scan depth node s₁ s
  returns : ∃ x, (getEmcy depth node).load s.reader = some x
    ∧ (getEmcy depth node).next s.reader (s.writer.mem x) = .done r

section

variable {depth : Nat} {node : BitVec 8} {s₁ s : Sys Nat Input Getter}

theorem Scan.inv (h : Scan depth node s₁ s) (hinv : s₁.writer.Inv (emcyPublish depth))
    : s.writer.Inv (emcyPublish depth) := by
  induction h with
  | latest => exact hinv
  | first => exact hinv
  | step s s' _ _ hstep _ ih => exact hstep.inv ih

theorem Scan.closed_le (h : Scan depth node s₁ s) : s₁.writer.closed <+: s.writer.closed := by
  induction h with
  | latest => exact List.prefix_rfl
  | first => exact List.prefix_rfl
  | step s s' _ _ hstep _ ih => exact ih.trans hstep.closed_le

/-- What a scan knows whose call came after the publications `ps₀`. -/
def Ok (depth : Nat) (node : BitVec 8) (ps₀ m : List (Publication Nat Input))
    (s : Sys Nat Input Getter) : Prop :=
  match s.reader with
  | .guard candidate remaining => ∃ t, Tried depth node m candidate remaining t
  | .loading candidate remaining b got => (∃ t, Tried depth node m candidate remaining t)
      ∧ Guard.isOdd b = false ∧ b ≠ 0#32 ∧ got.length ≤ 4
      ∧ ∃ k ≥ (Publisher.within (slotOf depth candidate) ps₀).length,
        s.writer.Attempt (slotOf depth candidate) b got k
  | _ => True

/-- The load of the latest sequence number starts with the newest event. -/
theorem first_spec (hinv : s₁.writer.Inv (emcyPublish depth))
    : (getEmcy depth node).next .start (s₁.writer.mem .mark) = .done none
        ∧ newest depth node s₁.writer.marked = none
      ∨ ∃ candidate remaining t,
        (getEmcy depth node).next .start (s₁.writer.mem .mark) = .guard candidate remaining
        ∧ Tried depth node s₁.writer.marked candidate remaining t := by
  have hmark := (mark_eq hinv).1
  by_cases hz : s₁.writer.marked = []
  . refine .inl ⟨?_, by simp [hz, newest, recent]⟩
    rw [hmark, hz]
    rfl
  . have hpos : 0 < s₁.writer.marked.length := List.length_pos_iff.mpr hz
    have hlen : s₁.writer.marked.length = s₁.writer.marked.length - 1 + 1 := by omega
    have hne : seqOf s₁.writer.marked.length ≠ 0#32 := hlen ▸ seqOf_ne_zero _
    have hnext : (getEmcy depth node).next .start (s₁.writer.mem .mark)
        = enter (seqOf s₁.writer.marked.length) depth := by
      simp only [getEmcy, hmark, hne, if_false]
    rw [hnext]
    rcases @enter_spec _ node _ _ _ 0 hpos (Nat.zero_add _) (Nat.zero_le _)
      (by rw [if_pos (Nat.zero_le _), Nat.sub_zero, ← hlen]) (fun u hu => absurd hu (Nat.not_lt_zero u))
      with hdone | ⟨r, hr, htried⟩
    . exact .inl hdone
    . exact .inr ⟨_, r, 0, hr, htried⟩

theorem get_of_le {ps qs : List (Publication Nat Input)} (h : ps <+: qs) {i : Nat}
    (hi : i < ps.length) : qs[i]? = ps[i]? := by
  obtain ⟨r, rfl⟩ := h
  exact List.getElem?_append_left hi

/-- The slot of a candidate has been written. -/
theorem candidate_written {candidate : BitVec 32} {remaining t : Nat}
    (hinv : s.writer.Inv (emcyPublish depth)) {m : List (Publication Nat Input)}
    (hm : m <+: s.writer.closed) (h : Tried depth node m candidate remaining t)
    : ∃ x, s.writer.closed[m.length - 1 - t]? = some x ∧ m[m.length - 1 - t]? = some x
        ∧ x.cell = slotOf depth candidate := by
  have hlt : m.length - 1 - t < m.length := by
    have := h.lt
    omega
  have hget : s.writer.closed[m.length - 1 - t]? = m[m.length - 1 - t]? :=
    get_of_le hm hlt
  have hopened : s.writer.opened[m.length - 1 - t]? = some m[m.length - 1 - t] := by
    rw [← List.getElem?_eq_getElem hlt, ← get_of_le (hm.trans hinv.closed_le) hlt]
  refine ⟨m[m.length - 1 - t], by rw [hget, List.getElem?_eq_getElem hlt],
    List.getElem?_eq_getElem hlt, ?_⟩
  rw [(get_ordered hinv.ordered hopened).1, h.candidate, slotOf_seqOf]

/-- The stable words of the slot of a candidate are those of the candidate. -/
theorem candidate_found {candidate b : BitVec 32} {remaining t k : Nat} {got : List (BitVec 32)}
    {ps₀ m : List (Publication Nat Input)} {n₀ : Nat}
    (hinv : s.writer.Inv (emcyPublish depth)) (hm : m <+: s.writer.closed)
    (h : Tried depth node m candidate remaining t)
    (ha : s.writer.Attempt (slotOf depth candidate) b got k) (hlen : got.length = 4)
    (hb : b = s.writer.mem (.guard (slotOf depth candidate))) (heven : Guard.isOdd b = false)
    (hne : b ≠ 0#32) (hk : k ≥ (Publisher.within (slotOf depth candidate) ps₀).length)
    (hslot : (Publisher.within (slotOf depth candidate) s.writer.closed).length
      - (Publisher.within (slotOf depth candidate) ps₀).length < Guard.period)
    (hn₀ : n₀ ≤ m.length) (htotal : s.writer.closed.length - n₀ < 2 ^ 32 - depth)
    (hseq : got.getD 0 0 = candidate)
    : ∃ p, m[m.length - 1 - t]? = some p ∧ unpack got = event p := by
  obtain ⟨x, hx, hxm, hcell⟩ := candidate_written hinv hm h
  obtain ⟨p, hp, rfl⟩ := ha.finish hinv hlen hb heven hne (by omega)
  obtain ⟨j, hij, hj⟩ := last_in_slot hx hcell hp
  have hjlt := (List.getElem?_eq_some_iff.mp hj).1
  obtain ⟨-, -, hdata⟩ := get_ordered hinv.ordered ((get_of_le hinv.closed_le hjlt).trans hj)
  have hmod : (m.length - 1 - t) % epoch = j % epoch := by
    rw [hdata, h.candidate] at hseq
    exact (seqOf_inj hseq).symm
  -- the sequence number has not come back yet
  have hclose : j - (m.length - 1 - t) < epoch := by
    have := h.lt
    have := h.remaining
    unfold epoch
    omega
  have heq : m.length - 1 - t = j := by
    have hdvd : (j - (m.length - 1 - t)) % epoch = 0 := Nat.sub_mod_eq_zero_of_mod_eq hmod.symm
    rw [Nat.mod_eq_of_lt hclose] at hdvd
    omega
  subst heq
  rw [hx] at hj
  cases hj
  exact ⟨x, hxm, unpack_data hdata⟩

/-- A mismatch with the candidate leads to the one before it. -/
theorem next_candidate {candidate : BitVec 32} {remaining t : Nat}
    {m : List (Publication Nat Input)} {p : Publication Nat Input}
    (h : Tried depth node m candidate remaining t) (hp : m[m.length - 1 - t]? = some p)
    (hmatch : ¬ Matches node p)
    : enter (prevSequence candidate) remaining = .done none ∧ newest depth node m = none
      ∨ ∃ r, enter (prevSequence candidate) remaining = .guard (prevSequence candidate) r
        ∧ Tried depth node m (prevSequence candidate) r (t + 1) := by
  have hlt := h.lt
  have hepoch := h.epoch
  have hremaining := h.remaining
  refine enter_spec (by omega) (by omega) (by omega) ?_ fun u hu q hq => ?_
  . have hmod : (m.length - 1 - t) % epoch = (m.length - 1) % epoch - t := by
      unfold epoch at *
      omega
    have hle := Nat.mod_le (m.length - 1) epoch
    rw [h.candidate, prevSequence_seqOf, hmod]
    by_cases hnext : t + 1 ≤ (m.length - 1) % epoch
    . rw [if_neg (by omega), if_pos hnext]
      congr 1
      omega
    . rw [if_pos (by omega), if_neg hnext]
  . rcases Nat.lt_succ_iff_lt_or_eq.mp hu with hlt | rfl
    . exact h.missed u hlt q hq
    . rw [hp] at hq
      cases hq
      exact hmatch

/-- What the last load of a slot that is not torn leads to. -/
theorem loaded_spec {candidate b : BitVec 32} {remaining n₀ : Nat} {got : List (BitVec 32)}
    {ps₀ m : List (Publication Nat Input)} (hinv : s.writer.Inv (emcyPublish depth))
    (hm : m <+: s.writer.closed) (hreader : s.reader = .loading candidate remaining b got)
    (h : Ok depth node ps₀ m s) (hlen : ¬ got.length < 4)
    (hslots : ∀ c, (Publisher.within c s.writer.closed).length - (Publisher.within c ps₀).length
      < Guard.period)
    (hn₀ : n₀ ≤ m.length) (htotal : s.writer.closed.length - n₀ < 2 ^ 32 - depth)
    (hb : b = s.writer.mem (.guard (slotOf depth candidate))) (hseq : got.getD 0 0 = candidate)
    : ∃ t p, Tried depth node m candidate remaining t ∧ m[m.length - 1 - t]? = some p
        ∧ unpack got = event p := by
  simp only [Ok, hreader] at h
  obtain ⟨⟨t, htried⟩, heven, hne, hle, k, hk, ha⟩ := h
  obtain ⟨p, hp, hevent⟩ := candidate_found hinv hm htried ha (by omega) hb heven hne hk (hslots _)
    hn₀ htotal hseq
  exact ⟨t, p, htried, hp, hevent⟩

/-- What one step of a scan keeps. -/
theorem Ok.step {s' : Sys Nat Input Getter} {ps₀ m : List (Publication Nat Input)} {n₀ : Nat}
    (h : Ok depth node ps₀ m s) (hinv : s.writer.Inv (emcyPublish depth))
    (hm : m <+: s.writer.closed) (hps₀ : ps₀ <+: s.writer.closed)
    (hstep : Sys.Step (emcyPublish depth) (getEmcy depth node) s s')
    (hs : s.reader ≠ .start) (hs' : s'.reader ≠ .start)
    (hslots : ∀ c, (Publisher.within c s.writer.closed).length - (Publisher.within c ps₀).length
      < Guard.period) (hn₀ : n₀ ≤ m.length)
    (htotal : s.writer.closed.length - n₀ < 2 ^ 32 - depth)
    : Ok depth node ps₀ m s' := by
  cases hstep with
  | write w hw =>
    unfold Ok at *
    cases hr : s.reader with
    | start => trivial
    | guard candidate remaining => simpa only [hr] using h
    | loading candidate remaining b got =>
      simp only [hr] at h ⊢
      obtain ⟨htried, heven, hne, hle, k, hk, ha⟩ := h
      exact ⟨htried, heven, hne, hle, k, hk, ha.step hinv hw⟩
    | done r => trivial
  | load x hx =>
    cases hr : s.reader with
    | start => exact absurd hr hs
    | guard candidate remaining =>
      simp only [Ok, hr] at h
      simp only [hr, getEmcy, Option.some.injEq] at hx hs'
      subst hx
      simp only [Ok, getEmcy]
      by_cases hz : s.writer.mem (.guard (slotOf depth candidate)) = 0#32
      . simp only [if_pos hz]
      . by_cases hodd : Guard.isOdd (s.writer.mem (.guard (slotOf depth candidate))) = true
        . simp [hz, hodd] at hs'
        . simp only [if_neg hz, if_neg hodd]
          have heven : Guard.isOdd (s.writer.mem (.guard (slotOf depth candidate))) = false := by
            simpa using hodd
          exact ⟨h, heven, hz, Nat.zero_le _, _, (Publisher.within_le _ hps₀).length_le,
            .begin hinv heven⟩
    | loading candidate remaining b got =>
      by_cases hlen : got.length < 4
      . simp only [Ok, hr] at h
        simp only [hr, getEmcy, if_pos hlen, Option.some.injEq] at hx
        subst hx
        simp only [Ok, getEmcy, if_pos hlen]
        obtain ⟨htried, heven, hne, hle, k, hk, ha⟩ := h
        exact ⟨htried, heven, hne, by simpa [Nat.succ_le_iff] using hlen, k, hk, ha.load hinv hlen⟩
      . simp only [hr, getEmcy, if_neg hlen, Option.some.injEq] at hx hs'
        subst hx
        split at hs'
        next => exact absurd rfl hs'
        next hstable =>
          rw [not_or, Decidable.not_not] at hstable
          split at hs'
          next => exact absurd rfl hs'
          next hseq =>
            obtain ⟨t, p, htried, hp, hevent⟩ := loaded_spec hinv hm hr h hlen hslots hn₀ htotal
              hstable.1 (Decidable.not_not.mp hseq)
            simp only [Ok, getEmcy, if_neg hlen, if_neg (not_or.mpr ⟨not_not.mpr hstable.1,
              hstable.2⟩), if_neg hseq]
            by_cases hmatch : node = 0#8 ∨ (unpack got).node = node
            . simp only [if_pos hmatch]
            . simp only [if_neg hmatch]
              rcases next_candidate htried hp (by rwa [hevent] at hmatch) with ⟨hdone, -⟩ | ⟨r, hr', hn⟩
              . simp only [hdone]
              . simp only [hr']
                exact ⟨t + 1, hn⟩
    | done r => simp [hr, getEmcy] at hx

/-- Fewer publications than a guard or the sequence number tells apart, since the call in `s₀`. -/
structure Few (depth : Nat) (s₀ s : Sys Nat Input Getter) : Prop where
  slots : ∀ c, (Publisher.within c s.writer.closed).length
    - (Publisher.within c s₀.writer.closed).length < 2 ^ 31 - 1
  total : s.writer.closed.length - s₀.writer.marked.length < 2 ^ 32 - depth

theorem Few.of_le {s₀ s s' : Sys Nat Input Getter} (h : Few depth s₀ s')
    (hle : s.writer.closed <+: s'.writer.closed) : Few depth s₀ s where
  slots := fun c => by
    have := h.slots c
    have := (Publisher.within_le c hle).length_le
    omega
  total := by
    have := h.total
    have := hle.length_le
    omega

/-- What a scan knows in every state. -/
theorem Scan.ok {s₀ : Sys Nat Input Getter} (h : Scan depth node s₁ s)
    (hinv : s₁.writer.Inv (emcyPublish depth)) (hclosed : s₀.writer.closed <+: s₁.writer.closed)
    (hmarked : s₀.writer.marked <+: s₁.writer.marked) (hfew : Few depth s₀ s)
    : Ok depth node s₀.writer.closed s₁.writer.marked s := by
  induction h with
  | latest hstart => simp [Ok, hstart]
  | first hstart =>
    rcases @first_spec _ node _ hinv with ⟨hdone, -⟩ | ⟨candidate, remaining, t, hguard, htried⟩
    . simp only [Ok, hdone]
    . simp only [Ok, hguard]
      exact ⟨t, htried⟩
  | step s s' hscan hs hstep hs' ih =>
    have hfew' := hfew.of_le hstep.closed_le
    exact (ih hfew').step (hscan.inv hinv) ((mark_eq hinv).2.trans hscan.closed_le)
      (hclosed.trans hscan.closed_le) hstep hs hs' hfew'.slots hmarked.length_le hfew'.total

theorem Scan.eq_of_start (h : Scan depth node s₁ s) (hstart : s.reader = .start) : s = s₁ := by
  cases h with
  | latest => rfl
  | first hs₁ =>
    exfalso
    simp only [getEmcy, enter] at hstart
    split at hstart
    . cases hstart
    . split at hstart <;> cases hstart
  | step _ _ _ _ _ hs' => exact absurd hstart hs'

/-- A call returns the newest of the events that it looks at, if there is one. -/
theorem Call.newest_eq {s₀ : Sys Nat Input Getter} {r : Option Event}
    (h : Call depth node s₀ s₁ s r) (hfew : Few depth s₀ s)
    : r = newest depth node s₁.writer.marked := by
  have hinv₁ := Sys.Steps.inv h.retries h.reachable.inv
  have hinv := h.scan.inv hinv₁
  have hclosed := Sys.Steps.closed_le h.retries
  have hmarked := Sys.Steps.marked_le h.retries
  have hm : s₁.writer.marked <+: s.writer.closed := (mark_eq hinv₁).2.trans h.scan.closed_le
  have hok := h.scan.ok hinv₁ hclosed hmarked hfew
  obtain ⟨x, hx, hnext⟩ := h.returns
  cases hr : s.reader with
  | start =>
    obtain rfl := h.scan.eq_of_start hr
    simp only [hr, getEmcy, Option.some.injEq] at hx
    subst hx
    rw [hr] at hnext
    rcases @first_spec _ node _ hinv₁ with ⟨hdone, hnone⟩ | ⟨_, _, _, hguard, -⟩
    . rw [hdone] at hnext
      cases hnext
      exact hnone.symm
    . rw [hguard] at hnext
      cases hnext
  | guard candidate remaining =>
    exfalso
    simp only [Ok, hr] at hok
    obtain ⟨t, htried⟩ := hok
    simp only [hr, getEmcy, Option.some.injEq] at hx hnext
    subst hx
    split at hnext
    next hz =>
      -- the guard of a slot that was written is not zero
      obtain ⟨y, hy, -, hcell⟩ := candidate_written hinv hm htried
      have hrest := hinv.rest_of_even (c := slotOf depth candidate) (by rw [hz]; rfl)
      have hlen := Guard.closing_eq_zero.mp (hrest.guard.symm.trans hz)
      have hmem : y ∈ Publisher.within (slotOf depth candidate) s.writer.closed :=
        List.mem_filter.mpr ⟨List.mem_of_getElem? hy, decide_eq_true hcell⟩
      exact List.ne_nil_of_mem hmem (List.eq_nil_of_length_eq_zero hlen)
    next => split at hnext <;> cases hnext
  | loading candidate remaining b got =>
    simp only [hr, getEmcy, Option.some.injEq] at hx hnext
    by_cases hlen : got.length < 4
    . rw [if_pos hlen] at hnext
      cases hnext
    . rw [if_neg hlen] at hx hnext
      subst hx
      split at hnext
      next => cases hnext
      next hstable =>
        rw [not_or, Decidable.not_not] at hstable
        split at hnext
        next => cases hnext
        next hseq =>
          obtain ⟨t, p, htried, hp, hevent⟩ := loaded_spec hinv hm hr hok hlen hfew.slots
            hmarked.length_le hfew.total hstable.1 (Decidable.not_not.mp hseq)
          rw [hevent] at hnext
          split at hnext
          next hmatch =>
            cases hnext
            exact (newest_eq_some htried hp hmatch).symm
          next hmatch =>
            rcases next_candidate htried hp hmatch with ⟨hdone, hnone⟩ | ⟨_, hguard, -⟩
            . rw [hdone] at hnext
              cases hnext
              exact hnone.symm
            . rw [hguard] at hnext
              cases hnext
  | done r => simp [hr, getEmcy] at hx

end

/-! ### Scans beside an idle owner -/

/-- The reader after its next load. -/
def alone (depth : Nat) (node : BitVec 8) (mem : Mem Nat) (g : Getter) : Getter :=
  match (getEmcy depth node).load g with
  | none => g
  | some x => (getEmcy depth node).next g (mem x)

/-- A reader that has been alone since it loaded the latest sequence number. -/
def Quiet (depth : Nat) (node : BitVec 8) (w : Publisher Nat Input) : Getter → Prop
  | .start => False
  | .guard candidate remaining => ∃ t, Tried depth node w.closed candidate remaining t
  | .loading candidate remaining b got => b = w.mem (.guard (slotOf depth candidate))
      ∧ Guard.isOdd b = false
      ∧ ∃ t p, Tried depth node w.closed candidate remaining t
        ∧ w.closed[w.closed.length - 1 - t]? = some p ∧ got.length ≤ 4
        ∧ got = p.data.take got.length
  | .done _ => True

/-- The loads that a reader still does, if nothing is published. -/
def loadsLeft : Getter → Nat
  | .start => 0
  | .guard _ remaining => 6 * remaining + 6
  | .loading _ remaining _ got => 6 * remaining + 5 - got.length
  | .done _ => 0

section

variable {depth : Nat} {node : BitVec 8} {w : Publisher Nat Input}

/-- Nothing is left to store of an idle writer. -/
theorem idle_spec (hinv : w.Inv (emcyPublish depth)) (htodo : w.todo = [])
    : w.opened = w.closed ∧ w.marked = w.closed ∧ ∀ c, w.Rest c := by
  cases hinv.phase with
  | idle _ opened marked _ rest =>
    rw [withMark_ordered (opened ▸ hinv.ordered)] at marked
    exact ⟨opened, marked, rest⟩
  | ready p _ todo => simp [htodo, Publication.stores] at todo
  | writing p k _ todo => simp [htodo, Publication.ending] at todo
  | marking ps p v _ todo => simp [htodo] at todo

/-- The slot of a candidate holds the candidate. -/
theorem candidate_last {candidate : BitVec 32} {remaining t : Nat} {p : Publication Nat Input}
    (hinv : w.Inv (emcyPublish depth)) (hopened : w.opened = w.closed)
    (h : Tried depth node w.closed candidate remaining t)
    (hp : w.closed[w.closed.length - 1 - t]? = some p)
    : (Publisher.within (slotOf depth candidate) w.closed).getLast? = some p := by
  have hord : Publisher.Ordered (emcyPublish depth) w.closed := hopened ▸ hinv.ordered
  have hcell : p.cell = slotOf depth candidate := by
    rw [(get_ordered hord hp).1, h.candidate, slotOf_seqOf]
  have hmem : p ∈ Publisher.within (slotOf depth candidate) w.closed :=
    List.mem_filter.mpr ⟨List.mem_of_getElem? hp, decide_eq_true hcell⟩
  obtain ⟨q, hq⟩ : ∃ q, (Publisher.within (slotOf depth candidate) w.closed).getLast? = some q :=
    ⟨_, List.getLast?_eq_some_getLast (List.ne_nil_of_mem hmem)⟩
  obtain ⟨j, hij, hj⟩ := last_in_slot hp hcell hq
  have hqcell : q.cell = slotOf depth candidate :=
    of_decide_eq_true (List.mem_filter.mp (List.mem_of_getLast? hq)).2
  have hjlt := (List.getElem?_eq_some_iff.mp hj).1
  -- two events of one epoch that are less than a round apart have different slots
  have hslots : (w.closed.length - 1 - t) % epoch % depth = j % epoch % depth := by
    rw [(get_ordered hord hj).1, h.candidate, slotOf_seqOf] at hqcell
    exact hqcell.symm
  have hepoch := h.epoch
  have hlt := h.lt
  have hremaining := h.remaining
  have hmod : (w.closed.length - 1 - t) % epoch + (j - (w.closed.length - 1 - t)) = j % epoch := by
    unfold epoch at *
    omega
  have heq : j = w.closed.length - 1 - t := by
    rw [← hmod] at hslots
    have hdvd : (j - (w.closed.length - 1 - t)) % depth = 0 := by
      have := Nat.sub_mod_eq_zero_of_mod_eq hslots.symm
      rwa [Nat.add_sub_cancel_left] at this
    rw [Nat.mod_eq_of_lt (by omega)] at hdvd
    omega
  rw [heq, hp] at hj
  rw [hq, hj]

/-- A reader beside an idle writer does not retry, and gets closer to its end. -/
theorem Quiet.step {g : Getter} (h : Quiet depth node w g) (hinv : w.Inv (emcyPublish depth))
    (htodo : w.todo = []) (hg : ∀ r, g ≠ .done r)
    : Quiet depth node w (alone depth node w.mem g)
      ∧ loadsLeft (alone depth node w.mem g) < loadsLeft g := by
  obtain ⟨hopened, -, hrest⟩ := idle_spec hinv htodo
  have hord : Publisher.Ordered (emcyPublish depth) w.closed := hopened ▸ hinv.ordered
  cases g with
  | start => exact absurd h id
  | done r => exact absurd rfl (hg r)
  | guard candidate remaining =>
    obtain ⟨t, htried⟩ := h
    have hlt : w.closed.length - 1 - t < w.closed.length := by
      have := htried.lt
      omega
    have hguard := (hrest (slotOf depth candidate)).guard
    have hlast := candidate_last hinv hopened htried (List.getElem?_eq_getElem hlt)
    have hz : w.mem (.guard (slotOf depth candidate)) ≠ 0#32 := by
      rw [hguard, ne_eq, Guard.closing_eq_zero]
      intro hlen
      rw [List.eq_nil_of_length_eq_zero hlen] at hlast
      cases hlast
    have heven : Guard.isOdd (w.mem (.guard (slotOf depth candidate))) = false := by
      rw [hguard, Guard.isOdd_closing]
    simp only [alone, getEmcy, if_neg hz, heven, Bool.false_eq_true, if_false]
    refine ⟨⟨rfl, heven, t, _, htried, List.getElem?_eq_getElem hlt, Nat.zero_le _, rfl⟩, ?_⟩
    simp only [loadsLeft, List.length_nil]
    omega
  | loading candidate remaining b got =>
    obtain ⟨hb, heven, t, p, htried, hp, hle, hgot⟩ := h
    have hdata := (get_ordered hord hp).2.2
    have hlen : p.data.length = 4 := by rw [hdata]; rfl
    have hlast := candidate_last hinv hopened htried hp
    have hcell : p.cell = slotOf depth candidate :=
      of_decide_eq_true (List.mem_filter.mp (List.mem_of_getLast? hlast)).2
    by_cases hlt : got.length < 4
    . have hword := (hrest (slotOf depth candidate)).holds p hlast got.length (hlen ▸ hlt) _
        (List.getElem?_eq_getElem (hlen ▸ hlt))
      rw [hcell] at hword
      simp only [alone, getEmcy, if_pos hlt]
      refine ⟨⟨hb, heven, t, p, htried, hp, by simpa [Nat.succ_le_iff] using hlt, ?_⟩, ?_⟩
      . rw [List.length_append, List.length_singleton, List.take_add_one, ← hgot,
          List.getElem?_eq_getElem (hlen ▸ hlt), hword]
        rfl
      . simp only [loadsLeft, List.length_append, List.length_singleton]
        omega
    . have hfull : got = p.data := by
        rw [hgot, show got.length = p.data.length by omega, List.take_length]
      have hseq : got.getD 0 0 = candidate := by
        rw [hfull, hdata, htried.candidate]
        rfl
      have hstable : ¬ (b ≠ w.mem (.guard (slotOf depth candidate))
          ∨ Guard.isOdd (w.mem (.guard (slotOf depth candidate))) = true) := by
        rw [← hb]
        simp [heven]
      simp only [alone, getEmcy, if_neg hlt, if_neg hstable, if_neg (not_not.mpr hseq)]
      by_cases hmatch : node = 0#8 ∨ (unpack got).node = node
      . rw [if_pos hmatch]
        refine ⟨trivial, ?_⟩
        simp only [loadsLeft]
        omega
      . rw [if_neg hmatch]
        rw [hfull, unpack_data hdata] at hmatch
        rcases next_candidate htried hp hmatch with ⟨hdone, -⟩ | ⟨r, hr, hn⟩
        . rw [hdone]
          refine ⟨trivial, ?_⟩
          simp only [loadsLeft]
          omega
        . rw [hr]
          refine ⟨⟨t + 1, hn⟩, ?_⟩
          have := hn.remaining
          have := htried.remaining
          simp only [loadsLeft]
          omega

/-- A reader beside an idle writer ends without a retry. -/
theorem Quiet.ends (hinv : w.Inv (emcyPublish depth)) (htodo : w.todo = []) (n : Nat) {g : Getter}
    (h : Quiet depth node w g) (hn : loadsLeft g ≤ n)
    : ∃ k ≤ n, (∃ r, (alone depth node w.mem)^[k] g = .done r)
        ∧ ∀ j ≤ k, (alone depth node w.mem)^[j] g ≠ .start := by
  have hstart {g : Getter} (h : Quiet depth node w g) : g ≠ .start := by
    rintro rfl
    exact h
  induction n generalizing g with
  | zero =>
    refine ⟨0, Nat.le_refl _, ?_, fun j hj => ?_⟩
    . cases g with
      | start => exact absurd h id
      | done r => exact ⟨r, rfl⟩
      | guard => simp [loadsLeft] at hn
      | loading candidate remaining b got =>
        obtain ⟨-, -, t, p, -, -, hle, -⟩ := h
        simp only [loadsLeft] at hn
        omega
    . rw [Nat.le_zero.mp hj]
      exact hstart h
  | succ n ih =>
    by_cases hdone : ∃ r, g = .done r
    . obtain ⟨r, rfl⟩ := hdone
      refine ⟨0, Nat.zero_le _, ⟨r, rfl⟩, fun j hj => ?_⟩
      rw [Nat.le_zero.mp hj]
      exact hstart h
    . obtain ⟨hquiet, hless⟩ := h.step hinv htodo fun r hr => hdone ⟨r, hr⟩
      obtain ⟨k, hk, hend, hnever⟩ := ih hquiet (by omega)
      refine ⟨k + 1, Nat.succ_le_succ hk, hend, fun j hj => ?_⟩
      cases j with
      | zero => exact hstart h
      | succ j => exact hnever j (Nat.le_of_succ_le_succ hj)

end

/-! ### The sequence number comes back -/

section

variable {depth : Nat} {node : BitVec 8} {w : Publisher Nat Input}

/-- The owner can publish an event and come to rest again. -/
theorem publish_one (hinv : w.Inv (emcyPublish depth)) (htodo : w.todo = []) (e : Input)
    : ∃ w', Relation.ReflTransGen (Publisher.Step (emcyPublish depth)) w w' ∧ w'.todo = []
        ∧ ∃ p : Publication Nat Input, w'.closed = w.closed ++ [p] ∧ p.event = e := by
  obtain ⟨-, -, hrest⟩ := idle_spec hinv htodo
  have hodd (c : Nat) : Guard.isOdd (Guard.next (w.mem (.guard c)) + 1#32) = true := by
    rw [(hrest c).guard, Guard.isOdd_next_closing]
  have heven (c : Nat) : Guard.isOdd (Guard.next (w.mem (.guard c)) + 2#32) = false := by
    rw [(hrest c).guard]
    exact Guard.isOdd_closing (_ + 1)
  refine ⟨(w.publish (emcyPublish depth) e).advance.advance.advance.advance.advance.advance.advance,
    ?_, rfl, (emcyPublish depth).publication w.mem e, ?_, rfl⟩
  . exact (((((((Relation.ReflTransGen.single (.publish w e htodo)).trans
      (Publisher.advance_steps _ _)).trans (Publisher.advance_steps _ _)).trans
      (Publisher.advance_steps _ _)).trans (Publisher.advance_steps _ _)).trans
      (Publisher.advance_steps _ _)).trans (Publisher.advance_steps _ _)).trans (Publisher.advance_steps _ _)
  . simp [Publisher.advance, Publisher.publish, Publisher.store, Publication.stores, Publication.ending,
      dataStores, emcyPublish, Layout.publication, hodd, heven]

/-- The owner can publish an event any number of times and come to rest again. -/
theorem publish_many (hinv : w.Inv (emcyPublish depth)) (htodo : w.todo = []) (e : Input) (n : Nat)
    : ∃ w', Relation.ReflTransGen (Publisher.Step (emcyPublish depth)) w w' ∧ w'.todo = []
        ∧ ∃ ps : List (Publication Nat Input), w'.closed = w.closed ++ ps ∧ ps.length = n
          ∧ ∀ p ∈ ps, p.event = e := by
  induction n with
  | zero => exact ⟨w, .refl, htodo, [], (List.append_nil _).symm, rfl, by simp⟩
  | succ n ih =>
    obtain ⟨w', hsteps, htodo', ps, hclosed, hlen, hps⟩ := ih
    have hinv' : w'.Inv (emcyPublish depth) := by
      clear hclosed htodo'
      induction hsteps with
      | refl => exact hinv
      | tail _ hstep ih => exact ih.step hstep
    obtain ⟨w'', hsteps', htodo'', p, hclosed', hp⟩ := publish_one hinv' htodo' e
    refine ⟨w'', hsteps.trans hsteps', htodo'', ps ++ [p], ?_, ?_, fun q hq => ?_⟩
    . rw [hclosed', hclosed, List.append_assoc]
    . rw [List.length_append, hlen, List.length_singleton]
    . rcases List.mem_append.mp hq with hq | hq
      . exact hps q hq
      . rw [List.mem_singleton.mp hq, hp]

/-- The events of one epoch are spread over three slots. -/
theorem within_le_third {ps : List (Publication Nat Input)}
    (h : Publisher.Ordered (emcyPublish 3) ps) (hle : ps.length ≤ epoch) (c : Nat)
    : (Publisher.within c ps).length ≤ (ps.length + 2 - c) / 3 := by
  induction ps using List.reverseRecOn with
  | nil => exact Nat.zero_le _
  | append_singleton ps p ih =>
    rw [List.length_append, List.length_singleton] at hle ⊢
    have hps := ih h.of_concat (by omega)
    have hmod : ps.length % epoch = ps.length := Nat.mod_eq_of_lt (by omega)
    have hcell : p.cell = ps.length % 3 := by
      rw [(get_ordered h List.getElem?_concat_length).1, slotAt, hmod]
    rw [Publisher.within_append, List.length_append]
    by_cases hc : c = p.cell
    . rw [hc, Publisher.within_self, ← hc, List.length_singleton]
      omega
    . rw [Publisher.within_ne hc, List.length_nil]
      omega

theorem newest_concat (hdepth : 0 < depth) (ps : List (Publication Nat Input))
    (p : Publication Nat Input) : newest depth 0#8 (ps ++ [p]) = some (event p) := by
  obtain ⟨n, hn⟩ : ∃ n, min depth (ps.length % epoch + 1) = n + 1 :=
    Nat.exists_eq_succ_of_ne_zero (by omega)
  simp [newest, recent, hn]

/-- The owner publishes while the reader waits for its next load. -/
theorem Scan.write {s₁ : Sys Nat Input Getter} {w' : Publisher Nat Input} {g : Getter}
    (h : Scan depth node s₁ ⟨w, g⟩) (hg : g ≠ .start)
    (hsteps : Relation.ReflTransGen (Publisher.Step (emcyPublish depth)) w w')
    : Scan depth node s₁ ⟨w', g⟩ := by
  induction hsteps with
  | refl => exact h
  | tail _ hstep ih => exact .step _ _ ih hg (.write _ _ hstep) hg

/-- A scan beside an idle owner returns, whatever it has started from. -/
theorem Quiet.returns (hinv : w.Inv (emcyPublish depth)) (htodo : w.todo = []) {g : Getter}
    (h : Quiet depth node w g) (hg : ∀ r, g ≠ .done r)
    : ∃ s r, (∀ s₁, Scan depth node s₁ ⟨w, g⟩ → Scan depth node s₁ s) ∧ s.writer = w
        ∧ ∃ x, (getEmcy depth node).load s.reader = some x
          ∧ (getEmcy depth node).next s.reader (s.writer.mem x) = .done r := by
  induction hn : loadsLeft g using Nat.strongRecOn generalizing g with
  | ind n ih =>
    subst hn
    obtain ⟨hquiet, hless⟩ := h.step hinv htodo hg
    obtain ⟨x, hx⟩ : ∃ x, (getEmcy depth node).load g = some x := by
      cases g with
      | start => exact absurd h id
      | done r => exact absurd rfl (hg r)
      | guard => exact ⟨_, rfl⟩
      | loading => exact ⟨_, rfl⟩
    have halone : alone depth node w.mem g = (getEmcy depth node).next g (w.mem x) := by
      simp only [alone, hx]
    by_cases hdone : ∃ r, alone depth node w.mem g = .done r
    . obtain ⟨r, hr⟩ := hdone
      exact ⟨⟨w, g⟩, r, fun _ hscan => hscan, rfl, x, hx, halone ▸ hr⟩
    . obtain ⟨s, r, hscan, hw, hreturns⟩ := ih _ hless hquiet
        (fun r hr => hdone ⟨r, hr⟩) rfl
      have hne {g' : Getter} (hq : Quiet depth node w g') : g' ≠ .start := by
        rintro rfl
        exact hq
      refine ⟨s, r, fun s₁ hs₁ => hscan s₁ ?_, hw, hreturns⟩
      rw [halone] at hquiet ⊢
      exact .step _ _ hs₁ (hne h) (.load ⟨w, g⟩ x hx) (hne hquiet)

/-- A call beside an idle owner returns. -/
theorem call_of_idle (hw : w.Reachable (emcyPublish depth)) (htodo : w.todo = [])
    : ∃ s r, Call depth node ⟨w, .start⟩ ⟨w, .start⟩ s r ∧ s.writer = w := by
  obtain ⟨-, hmarked, -⟩ := idle_spec hw.inv htodo
  rcases @first_spec _ node ⟨w, .start⟩ hw.inv with ⟨hdone, -⟩ | ⟨candidate, remaining, t, hguard, htried⟩
  . exact ⟨⟨w, .start⟩, none, ⟨hw, rfl, .refl, .latest rfl, .mark, rfl, hdone⟩, rfl⟩
  . have hquiet : Quiet depth node w (.guard candidate remaining) := ⟨t, hmarked ▸ htried⟩
    obtain ⟨s, r, hscan, hwriter, hreturns⟩ := Quiet.returns hw.inv htodo hquiet (fun r h => nomatch h)
    have hfirst := @Scan.first depth node ⟨w, .start⟩ rfl
    rw [hguard] at hfirst
    exact ⟨s, r, ⟨hw, rfl, .refl, hscan _ hfirst, hreturns⟩, hwriter⟩

end

/--
A read returns the newest matching event among the last ones of the epoch, as of its last load of
the latest sequence number, and `-RT_EBUSY` if there is none. Beside an idle owner it ends without a
retry.
-/
theorem get_emcy_exact (depth : Nat) (node : BitVec 8)
    : (∀ s₀ s₁ s r, Call depth node s₀ s₁ s r → Few depth s₀ s →
        r = newest depth node s₁.writer.marked)
      ∧ (∀ w : Publisher Nat Input, w.Reachable (emcyPublish depth) → ∀ i p, w.opened[i]? = some p →
        (event p).sequence = seqOf (i + 1))
      ∧ ∀ w : Publisher Nat Input, w.Reachable (emcyPublish depth) → w.todo = [] →
        ∃ k ≤ 6 * depth + 1, (∃ r, (alone depth node w.mem)^[k] .start = .done r)
          ∧ ∀ j ≤ k, 0 < j → (alone depth node w.mem)^[j] .start ≠ .start := by
  refine ⟨fun s₀ s₁ s r hcall hfew => hcall.newest_eq hfew, fun w hw i p hp => ?_,
    fun w hw htodo => ?_⟩
  . simp only [event, (get_ordered hw.inv.ordered hp).2.2]
    rfl
  . obtain ⟨-, hmarked, -⟩ := idle_spec hw.inv htodo
    rcases @first_spec _ node ⟨w, .start⟩ hw.inv with ⟨hdone, -⟩ | ⟨c, r, t, hguard, htried⟩
    . refine ⟨1, by omega, ⟨none, hdone⟩, fun j hj hpos => ?_⟩
      obtain rfl : j = 1 := by omega
      rw [Function.iterate_one]
      exact fun h => nomatch hdone.symm.trans h
    . have hquiet : Quiet depth node w (.guard c r) := ⟨t, hmarked ▸ htried⟩
      have hleft : loadsLeft (.guard c r) ≤ 6 * depth := by
        have := htried.remaining
        simp only [loadsLeft]
        omega
      obtain ⟨k, hk, hend, hnever⟩ := Quiet.ends hw.inv htodo _ hquiet hleft
      have hfirst : alone depth node w.mem .start = .guard c r := hguard
      refine ⟨k + 1, by omega, ?_, fun j hj hpos => ?_⟩
      . rwa [Function.iterate_succ_apply, hfirst]
      . obtain ⟨j, rfl⟩ := Nat.exists_eq_succ_of_ne_zero (Nat.ne_of_gt hpos)
        rw [Function.iterate_succ_apply, hfirst]
        exact hnever j (by omega)

/-- An event of the node `node`. -/
def sample (node : BitVec 8) (hpos : node ≠ 0) (hle : node.toNat ≤ numNodes) : Input :=
  ⟨node, 0x1000, 1, none, hpos, hle⟩

/-- A call for any node after the nodes 1 and 2 have had an event each returns that of node 2. -/
theorem get_emcy_exact_two
    : ∃ s₀ s₁ s r, Call 3 0#8 s₀ s₁ s r ∧ Few 3 s₀ s ∧ s₁.writer.marked.length = 2
        ∧ r.map Event.node = some 2#8 := by
  obtain ⟨w₁, hw₁, htodo₁, p₁, hclosed₁, -⟩ := @publish_one 3 {} (.init _) rfl
    (sample 1#8 (by decide) (by decide))
  have hreach₁ : w₁.Reachable (emcyPublish 3) := hw₁
  obtain ⟨w₂, hw₂, htodo₂, p₂, hclosed₂, hp₂⟩ := publish_one hreach₁.inv htodo₁
    (sample 2#8 (by decide) (by decide))
  have hreach₂ : w₂.Reachable (emcyPublish 3) := hw₁.trans hw₂
  obtain ⟨-, hmarked₂, -⟩ := idle_spec hreach₂.inv htodo₂
  rw [List.nil_append] at hclosed₁
  rw [hclosed₁] at hclosed₂
  obtain ⟨s, r, hcall, hwriter⟩ := @call_of_idle 3 0#8 w₂ hreach₂ htodo₂
  have hfew : Few 3 ⟨w₂, .start⟩ s := by
    constructor
    . simp [hwriter]
    . simp [hwriter, hmarked₂]
  refine ⟨_, _, s, r, hcall, hfew, by rw [hmarked₂, hclosed₂]; rfl, ?_⟩
  rw [(get_emcy_exact 3 0#8).1 _ _ s r hcall hfew, hmarked₂, hclosed₂, newest_concat (by decide)]
  simp [event, hp₂, sample]

/--
With three slots, a call returns an event that was not published at its load of the latest sequence
number, if `2 ^ 32 - 1` events are published during the call. No slot gets `2 ^ 31 - 1` of them.
-/
theorem get_emcy_wraps
    : ¬ ∀ depth ≥ 1, ∀ node s₀ s₁ s r, Call depth node s₀ s₁ s r →
        (∀ c, (Publisher.within c s.writer.closed).length
          - (Publisher.within c s₀.writer.closed).length < 2 ^ 31 - 1) →
        r = newest depth node s₁.writer.marked := by
  intro hclaim
  obtain ⟨w₁, hw₁, htodo₁, p₁, hclosed₁, hp₁⟩ := @publish_one 3 {} (.init _) rfl
    (sample 1#8 (by decide) (by decide))
  have hreach₁ : w₁.Reachable (emcyPublish 3) := hw₁
  obtain ⟨w₂, hw₂, htodo₂, ps, hclosed₂, hlen, hps⟩ := publish_many hreach₁.inv htodo₁
    (sample 2#8 (by decide) (by decide)) epoch
  have hreach₂ : w₂.Reachable (emcyPublish 3) := hw₁.trans hw₂
  obtain ⟨hopened₂, hmarked₂, -⟩ := idle_spec hreach₂.inv htodo₂
  obtain ⟨-, hmarked₁, -⟩ := idle_spec hreach₁.inv htodo₁
  rw [List.nil_append] at hclosed₁
  have hlen₂ : w₂.closed.length = epoch + 1 := by
    rw [hclosed₂, hclosed₁, List.length_append, hlen, List.length_singleton, Nat.add_comm]
  obtain ⟨qs, q, rfl⟩ : ∃ qs q, ps = qs ++ [q] := by
    rcases List.eq_nil_or_concat ps with rfl | h
    . cases hlen
    . simpa using h
  rw [← List.append_assoc] at hclosed₂
  have hord : Publisher.Ordered (emcyPublish 3) (w₁.closed ++ qs) :=
    Publisher.Ordered.of_concat (hclosed₂ ▸ hopened₂ ▸ hreach₂.inv.ordered)
  -- the latest sequence number is one again
  have hfirst₁ : (getEmcy 3 0#8).next .start (w₁.mem .mark) = .guard 1#32 2 := by
    rw [(mark_eq hreach₁.inv).1, hmarked₁, hclosed₁]
    rfl
  have hmark₂ : w₂.mem .mark = 1#32 := by
    rw [(mark_eq hreach₂.inv).1, hmarked₂, hlen₂]
    rfl
  have hfirst₂ : (getEmcy 3 0#8).next .start (w₂.mem .mark) = .guard 1#32 2 := by
    rw [hmark₂]
    rfl
  have htried : Tried 3 0#8 w₂.closed 1#32 2 0 := by
    refine ⟨by omega, ?_, rfl, Nat.zero_le _, fun u hu => absurd hu (Nat.not_lt_zero u)⟩
    rw [hlen₂]
    rfl
  obtain ⟨s, r, hscan, rfl, hreturns⟩ := @Quiet.returns _ 0#8 _ hreach₂.inv htodo₂
    (.guard 1#32 2) ⟨0, htried⟩ (fun r h => nomatch h)
  have hscan₂ : Scan 3 0#8 ⟨s.writer, .start⟩ ⟨s.writer, .guard 1#32 2⟩ := by
    have := @Scan.first 3 0#8 ⟨s.writer, .start⟩ rfl
    rwa [hfirst₂] at this
  have hscan₁ : Scan 3 0#8 ⟨w₁, .start⟩ ⟨s.writer, .guard 1#32 2⟩ := by
    have := @Scan.first 3 0#8 ⟨w₁, .start⟩ rfl
    rw [hfirst₁] at this
    exact this.write (fun h => nomatch h) hw₂
  have hcall₂ : Call 3 0#8 ⟨s.writer, .start⟩ ⟨s.writer, .start⟩ s r :=
    ⟨hreach₂, rfl, .refl, hscan _ hscan₂, hreturns⟩
  have hcall₁ : Call 3 0#8 ⟨w₁, .start⟩ ⟨w₁, .start⟩ s r :=
    ⟨hreach₁, rfl, .refl, hscan _ hscan₁, hreturns⟩
  have hr₂ : r = newest 3 0#8 s.writer.closed := by
    rw [hcall₂.newest_eq ⟨fun c => by simp, by simp [hmarked₂]⟩, hmarked₂]
  have hr₁ : r = newest 3 0#8 w₁.closed := by
    rw [hclaim 3 (by decide) 0#8 _ _ _ _ hcall₁ ?_, hmarked₁]
    intro c
    have hle : (w₁.closed ++ qs).length = epoch := by
      rw [hclosed₂, List.length_append, List.length_singleton] at hlen₂
      exact Nat.succ.inj hlen₂
    have hthird := within_le_third hord (Nat.le_of_eq hle) c
    rw [hclosed₂, Publisher.within_append, List.length_append]
    have hone : (Publisher.within c [q]).length ≤ 1 := List.length_filter_le _ _
    unfold epoch at *
    omega
  have hevent : q.event = sample 2#8 (by decide) (by decide) := hps q (by simp)
  rw [hr₁, hclosed₂, newest_concat (by decide)] at hr₂
  have hfirst : newest 3 0#8 w₁.closed = some (event p₁) := by
    rw [hclosed₁]
    exact newest_concat (by decide) [] p₁
  rw [hfirst] at hr₂
  have hnode := congrArg Event.node (Option.some.inj hr₂)
  simp only [event, hp₁, hevent, sample] at hnode
  exact absurd hnode (by decide)

end LelyRtt.Emcy
