import Mathlib.Algebra.Ring.Nat
import Mathlib.Data.List.Infix
import Mathlib.Logic.Function.Basic
import Mathlib.Logic.Relation

/-!
This module contains cells that are published through a sequence lock by a single writer, under any
interleaving with a reader that loads one word at a time. A guard is odd while its cell is written
and even otherwise. It skips zero when it wraps.
-/

namespace Conc

/-- The guard and the data words of the cells, and one word outside of them. -/
inductive Word (ι : Type) where
  | guard (c : ι)
  | data (c : ι) (i : Nat)
  | mark
  deriving DecidableEq

namespace Guard

def isOdd (g : BitVec 32) : Bool := g &&& 1#32 != 0#32

/-- The guard that a publication counts on from, if it finds `g`. -/
def next (g : BitVec 32) : BitVec 32 :=
  let g := if isOdd g then g + 1#32 else g
  if g > 0xfffffffc#32 then 0#32 else g

/-- The guard after `k` publications. -/
def closing : Nat → BitVec 32
  | 0 => 0#32
  | k + 1 => next (closing k) + 2#32

/-- The number of values that the guard takes before it comes back. -/
def period : Nat := 2 ^ 31 - 1

theorem isOdd_iff (g : BitVec 32) : isOdd g = true ↔ g.toNat % 2 = 1 := by
  have hand : (g &&& 1#32).toNat = g.toNat % 2 := by
    rw [BitVec.toNat_and, BitVec.toNat_ofNat]
    exact Nat.and_one_is_mod _
  simp only [isOdd, bne_iff_ne, ne_eq, ← BitVec.toNat_inj, hand, BitVec.toNat_ofNat]
  omega

theorem isOdd_eq_false_iff (g : BitVec 32) : isOdd g = false ↔ g.toNat % 2 = 0 := by
  rw [← Bool.not_eq_true, isOdd_iff]
  omega

theorem toNat_next {g : BitVec 32} (h : isOdd g = false)
    : (next g).toNat = if g.toNat > 0xfffffffc then 0 else g.toNat := by
  have hlit : (0xfffffffc#32).toNat = 0xfffffffc := rfl
  simp only [next, h, Bool.false_eq_true, if_false, gt_iff_lt, BitVec.lt_def, hlit,
    apply_ite BitVec.toNat, BitVec.toNat_ofNat, Nat.zero_mod]

theorem toNat_closing (k : Nat)
    : (closing k).toNat = if k = 0 then 0 else 2 * ((k - 1) % period + 1) := by
  induction k with
  | zero => rfl
  | succ k ih =>
    have heven : isOdd (closing k) = false := by
      rw [isOdd_eq_false_iff, ih]
      split <;> omega
    simp only [closing, BitVec.toNat_add, toNat_next heven, ih, Nat.succ_ne_zero, if_false,
      BitVec.toNat_ofNat]
    rcases Nat.eq_zero_or_pos k with rfl | hk
    . rfl
    . have hmod : (k + 1 - 1) % period = ((k - 1) % period + 1) % period := by
        rw [Nat.mod_add_mod, Nat.sub_add_cancel hk, Nat.add_sub_cancel]
      have hlt : (k - 1) % period < period := Nat.mod_lt _ (by decide)
      rw [hmod, if_neg (Nat.ne_of_gt hk)]
      generalize (k - 1) % period = r at hlt
      unfold period at *
      split <;> omega

@[simp]
theorem isOdd_closing (k : Nat) : isOdd (closing k) = false := by
  rw [isOdd_eq_false_iff, toNat_closing]
  split <;> omega

@[simp]
theorem isOdd_next_closing (k : Nat) : isOdd (next (closing k) + 1#32) = true := by
  rw [isOdd_iff, BitVec.toNat_add, toNat_next (isOdd_closing k), toNat_closing, BitVec.toNat_ofNat]
  split
  . rfl
  . split <;> omega

theorem closing_eq_zero {k : Nat} : closing k = 0#32 ↔ k = 0 := by
  rw [← BitVec.toNat_inj, toNat_closing]
  simp

/-- Two publications that are less than a period apart close with different guards. -/
theorem closing_inj {i j : Nat} (hle : i ≤ j) (hlt : j - i < period) (h : closing i = closing j)
    : i = j := by
  rw [← BitVec.toNat_inj, toNat_closing, toNat_closing] at h
  unfold period at *
  split at h <;> split at h <;> omega

/-- The sequence number of the publication number `k`, counted from one. -/
def number (k : Nat) : BitVec 32 := closing k / 2#32

theorem toNat_number (k : Nat) : (number (k + 1)).toNat = k % period + 1 := by
  simp only [number, BitVec.toNat_udiv, toNat_closing, BitVec.toNat_ofNat, Nat.succ_ne_zero,
    if_false, Nat.add_sub_cancel]
  exact Nat.mul_div_cancel_left _ (by decide)

theorem number_succ (k : Nat)
    : number (k + 2) = if number (k + 1) = 0x7fffffff#32 then 1#32 else number (k + 1) + 1#32 := by
  have hlt : k % period < period := Nat.mod_lt _ (by decide)
  have hmod : (k + 1) % period = (k % period + 1) % period := by
    rw [Nat.mod_add_mod]
  apply BitVec.eq_of_toNat_eq
  rw [toNat_number, apply_ite BitVec.toNat, BitVec.toNat_add, toNat_number, hmod]
  simp only [← BitVec.toNat_inj, toNat_number, BitVec.toNat_ofNat]
  unfold period at *
  split <;> omega

end Guard

/-- A publication: its cell, the guard that it found there, and what it stores. -/
structure Publication (ι E : Type) where
  event : E
  cell : ι
  base : BitVec 32
  data : List (BitVec 32)
  mark : Option (BitVec 32)

/-- How an event is published. All of it may depend on the word `mark` that the writer finds. -/
structure Layout (ι E : Type) where
  cell : BitVec 32 → E → ι
  data : BitVec 32 → E → List (BitVec 32)
  mark : BitVec 32 → E → Option (BitVec 32)
  size : Nat
  length_data : ∀ m e, (data m e).length = size

variable {ι E ρ : Type}

abbrev Mem (ι : Type) := Word ι → BitVec 32

def Layout.publication (L : Layout ι E) (mem : Mem ι) (e : E) : Publication ι E where
  event := e
  cell := L.cell (mem .mark) e
  base := mem (.guard (L.cell (mem .mark) e))
  data := L.data (mem .mark) e
  mark := L.mark (mem .mark) e

/-- The stores of the data words from index `i` on. -/
def dataStores (c : ι) : Nat → List (BitVec 32) → List (Word ι × BitVec 32)
  | _, [] => []
  | i, v :: vs => (.data c i, v) :: dataStores c (i + 1) vs

namespace Publication

/-- The store that closes a publication, and the one of the mark. -/
def ending (p : Publication ι E) : List (Word ι × BitVec 32) :=
  (.guard p.cell, Guard.next p.base + 2#32) :: (p.mark.map fun v => (.mark, v)).toList

/-- The stores of a publication. -/
def stores (p : Publication ι E) : List (Word ι × BitVec 32) :=
  (.guard p.cell, Guard.next p.base + 1#32) :: dataStores p.cell 0 p.data ++ p.ending

end Publication

/--
The words and the stores that are left of the current publication. `opened`, `closed` and `marked`
are the publications that have stored an odd guard, an even guard and their mark.
-/
structure Publisher (ι E : Type) where
  mem : Mem ι := fun _ => 0
  todo : List (Word ι × BitVec 32) := []
  cur : List (Publication ι E) := []
  opened : List (Publication ι E) := []
  closed : List (Publication ι E) := []
  marked : List (Publication ι E) := []

namespace Publisher

variable [DecidableEq ι]

/-- Begin to publish `e`. -/
def publish (L : Layout ι E) (w : Publisher ι E) (e : E) : Publisher ι E :=
  { w with todo := (L.publication w.mem e).stores, cur := [L.publication w.mem e] }

/-- Run one store, with `rest` left to do. -/
def store (w : Publisher ι E) (x : Word ι × BitVec 32) (rest : List (Word ι × BitVec 32))
    : Publisher ι E where
  mem := Function.update w.mem x.1 x.2
  todo := rest
  cur := w.cur
  opened :=
    match x with
    | (.guard _, v) => if Guard.isOdd v then w.opened ++ w.cur else w.opened
    | _ => w.opened
  closed :=
    match x with
    | (.guard _, v) => if Guard.isOdd v then w.closed else w.closed ++ w.cur
    | _ => w.closed
  marked :=
    match x with
    | (.mark, _) => w.marked ++ w.cur
    | _ => w.marked

inductive Step (L : Layout ι E) : Publisher ι E → Publisher ι E → Prop where
  | publish (w : Publisher ι E) (e : E) (h : w.todo = []) : Step L w (w.publish L e)
  | store (w : Publisher ι E) (x : Word ι × BitVec 32) (rest : List (Word ι × BitVec 32))
      (h : w.todo = x :: rest) : Step L w (w.store x rest)

/-- The writers that any number of publications reaches. -/
def Reachable (L : Layout ι E) : Publisher ι E → Prop := Relation.ReflTransGen (Step L) {}

/-- The writer after the next store that it has to do. -/
def advance (w : Publisher ι E) : Publisher ι E :=
  match w.todo with
  | [] => w
  | x :: rest => w.store x rest

/-- The publications of a list that go to the cell `c`. -/
def within (c : ι) (ps : List (Publication ι E)) : List (Publication ι E) :=
  ps.filter (·.cell = c)

/-- The first `n` data words of a publication are in its cell. -/
def Holds (mem : Mem ι) (p : Publication ι E) (n : Nat) : Prop :=
  ∀ i < n, ∀ v, p.data[i]? = some v → mem (.data p.cell i) = v

/-- The cell `c` is not being written. -/
structure Rest (w : Publisher ι E) (c : ι) : Prop where
  opened : within c w.opened = within c w.closed
  guard : w.mem (.guard c) = Guard.closing (within c w.closed).length
  holds : ∀ p, (within c w.closed).getLast? = some p → Holds w.mem p p.data.length

/-- The publications of a list that have a mark. -/
def withMark (ps : List (Publication ι E)) : List (Publication ι E) :=
  ps.filter (·.mark.isSome)

/-- The mark after a history. -/
def markAfter (ps : List (Publication ι E)) : BitVec 32 :=
  (ps.filterMap (·.mark)).getLast?.getD 0

/-- The publication of `e` after a history. -/
def place (L : Layout ι E) (ps : List (Publication ι E)) (e : E) : Publication ι E where
  event := e
  cell := L.cell (markAfter ps) e
  base := Guard.closing (within (L.cell (markAfter ps) e) ps).length
  data := L.data (markAfter ps) e
  mark := L.mark (markAfter ps) e

/-- Every publication of a history is the one that its predecessors determine. -/
def Ordered (L : Layout ι E) (ps : List (Publication ι E)) : Prop :=
  ∀ l p r, ps = l ++ p :: r → p = place L l p.event

/-- Where the writer stands in a publication. -/
inductive Phase (L : Layout ι E) (w : Publisher ι E) : Prop where
  | idle (todo : w.todo = []) (opened : w.opened = w.closed) (marked : w.marked = withMark w.closed)
      (mark : w.mem .mark = markAfter w.closed) (rest : ∀ c, w.Rest c)
  | ready (p : Publication ι E) (cur : w.cur = [p]) (todo : w.todo = p.stores)
      (opened : w.opened = w.closed) (marked : w.marked = withMark w.closed)
      (mark : w.mem .mark = markAfter w.closed) (rest : ∀ c, w.Rest c)
      (place : p = place L w.closed p.event)
  | writing (p : Publication ι E) (k : Nat) (cur : w.cur = [p])
      (todo : w.todo = dataStores p.cell k (p.data.drop k) ++ p.ending)
      (opened : w.opened = w.closed ++ [p]) (marked : w.marked = withMark w.closed)
      (mark : w.mem .mark = markAfter w.closed) (rest : ∀ c ≠ p.cell, w.Rest c)
      (place : p = place L w.closed p.event)
      (guard : Guard.isOdd (w.mem (.guard p.cell)) = true) (holds : Holds w.mem p k)
      (le : k ≤ p.data.length)
  | marking (ps : List (Publication ι E)) (p : Publication ι E) (v : BitVec 32) (cur : w.cur = [p])
      (todo : w.todo = [(.mark, v)]) (value : p.mark = some v) (opened : w.opened = w.closed)
      (closed : w.closed = ps ++ [p]) (marked : w.marked = withMark ps)
      (mark : w.mem .mark = markAfter ps) (rest : ∀ c, w.Rest c)

/-- The invariant of the writer. -/
structure Inv (L : Layout ι E) (w : Publisher ι E) : Prop where
  phase : Phase L w
  ordered : Ordered L w.opened

section

variable {L : Layout ι E} {w : Publisher ι E} {p : Publication ι E} {ps : List (Publication ι E)}

@[simp]
theorem within_append (c : ι) (ps qs : List (Publication ι E))
    : within c (ps ++ qs) = within c ps ++ within c qs := by
  simp [within]

theorem within_self (p : Publication ι E) : within p.cell [p] = [p] := by
  simp [within]

theorem within_ne {c : ι} (h : c ≠ p.cell) : within c [p] = [] := by
  simp [within, h.symm]

omit [DecidableEq ι] in
theorem markAfter_concat (ps : List (Publication ι E)) (p : Publication ι E)
    : markAfter (ps ++ [p]) = p.mark.getD (markAfter ps) := by
  cases h : p.mark <;> simp [markAfter, h]

omit [DecidableEq ι] in
theorem withMark_concat (ps : List (Publication ι E)) (p : Publication ι E)
    : withMark (ps ++ [p]) = withMark ps ++ if p.mark.isSome then [p] else [] := by
  cases h : p.mark <;> simp [withMark, h]

theorem Ordered.concat (h : Ordered L ps) (hp : p = place L ps p.event) : Ordered L (ps ++ [p]) := by
  intro l q r heq
  rcases List.eq_nil_or_concat r with rfl | ⟨r, x, rfl⟩
  . obtain ⟨rfl, hq⟩ := List.append_inj' heq rfl
    cases hq
    exact hp
  . rw [List.concat_eq_append, ← List.cons_append, ← List.append_assoc] at heq
    exact h l q r (List.append_inj' heq rfl).1

theorem Ordered.of_concat (h : Ordered L (ps ++ [p])) : Ordered L ps := fun l q r heq =>
  h l q (r ++ [p]) (by rw [heq, List.append_assoc, List.cons_append])

/-- A cell keeps resting while other words are stored. -/
theorem Rest.frame {w' : Publisher ι E} {c : ι} (h : w.Rest c)
    (hopened : within c w'.opened = within c w.opened)
    (hclosed : within c w'.closed = within c w.closed)
    (hguard : w'.mem (.guard c) = w.mem (.guard c))
    (hdata : ∀ i, w'.mem (.data c i) = w.mem (.data c i))
    : w'.Rest c where
  opened := by rw [hopened, hclosed, h.opened]
  guard := by rw [hguard, hclosed, h.guard]
  holds := by
    intro p hp i hi v hv
    have hcell : p.cell = c := by
      have := List.mem_of_getLast? hp
      simpa [within] using (List.mem_filter.mp this).2
    have := h.holds p (hclosed ▸ hp) i hi v hv
    rw [hcell] at this ⊢
    rw [hdata, this]

theorem Phase.publish (h : Phase L w) (htodo : w.todo = []) (e : E) : Phase L (w.publish L e) := by
  cases h with
  | idle _ opened marked mark rest =>
    refine .ready (L.publication w.mem e) rfl rfl opened marked mark (fun c => ?_) ?_
    . exact (rest c).frame rfl rfl rfl fun _ => rfl
    . simp only [Layout.publication, place, mark, (rest _).guard, Publisher.publish]
  | ready p _ todo => simp [htodo, Publication.stores] at todo
  | writing p k _ todo => simp [htodo, Publication.ending] at todo
  | marking ps p v _ todo => simp [htodo] at todo

omit [DecidableEq ι] in
theorem Holds.of_le {mem : Mem ι} {n k : Nat} (h : Holds mem p n) (hk : k ≤ n) : Holds mem p k :=
  fun i hi v hv => h i (Nat.lt_of_lt_of_le hi hk) v hv

theorem Rest.base (h : w.Rest p.cell) (hp : p = place L w.closed p.event)
    : p.base = w.mem (.guard p.cell) := by
  rw [h.guard, hp]
  rfl

/-- The store that opens a publication. -/
theorem Phase.store_opens (hcur : w.cur = [p]) (hopened : w.opened = w.closed)
    (hmarked : w.marked = withMark w.closed) (hmark : w.mem .mark = markAfter w.closed)
    (hrest : ∀ c, w.Rest c) (hp : p = place L w.closed p.event)
    : Phase L (w.store (.guard p.cell, Guard.next p.base + 1#32)
        (dataStores p.cell 0 p.data ++ p.ending)) := by
  have hodd : Guard.isOdd (Guard.next p.base + 1#32) = true := by
    rw [(hrest _).base hp, (hrest _).guard, Guard.isOdd_next_closing]
  refine .writing p 0 hcur rfl ?_ (by simpa [store, hodd] using hmarked)
    (by simpa [store, hodd] using hmark) (fun c hc => ?_) ?_ ?_ ?_ (Nat.zero_le _)
  . simp [store, hodd, hcur, hopened]
  . refine (hrest c).frame ?_ ?_ ?_ fun i => ?_
    . simp [store, hodd, hcur, within_ne hc]
    . simp [store, hodd]
    . simp [store, hc]
    . simp [store]
  . simpa [store, hodd] using hp
  . simpa [store] using hodd
  . exact fun i hi => absurd hi (Nat.not_lt_zero i)

/-- The store of a data word. -/
theorem Phase.store_data {k : Nat} {v : BitVec 32} (hcur : w.cur = [p])
    (hopened : w.opened = w.closed ++ [p]) (hmarked : w.marked = withMark w.closed)
    (hmark : w.mem .mark = markAfter w.closed) (hrest : ∀ c ≠ p.cell, w.Rest c)
    (hp : p = place L w.closed p.event) (hguard : Guard.isOdd (w.mem (.guard p.cell)) = true)
    (hholds : Holds w.mem p k) (hk : k < p.data.length) (hv : p.data[k]? = some v)
    : Phase L (w.store (.data p.cell k, v)
        (dataStores p.cell (k + 1) (p.data.drop (k + 1)) ++ p.ending)) := by
  refine .writing p (k + 1) hcur rfl hopened hmarked (by simpa [store] using hmark)
    (fun c hc => ?_) hp ?_ (fun i hi u hu => ?_) hk
  . refine (hrest c hc).frame rfl rfl ?_ fun i => ?_
    . simp [store]
    . simp [store, hc]
  . simpa [store] using hguard
  . rcases Nat.lt_succ_iff_lt_or_eq.mp hi with hlt | rfl
    . simpa [store, Nat.ne_of_lt hlt] using hholds i hlt u hu
    . simpa [store] using Option.some.inj (hv.symm.trans hu)

/-- The store that closes a publication. -/
theorem Phase.store_closes (hcur : w.cur = [p]) (hopened : w.opened = w.closed ++ [p])
    (hmarked : w.marked = withMark w.closed) (hmark : w.mem .mark = markAfter w.closed)
    (hrest : ∀ c ≠ p.cell, w.Rest c) (hp : p = place L w.closed p.event)
    (hholds : Holds w.mem p p.data.length)
    : Phase L (w.store (.guard p.cell, Guard.next p.base + 2#32)
        (p.mark.map fun v => (Word.mark, v)).toList) := by
  have hbase : p.base = Guard.closing (within p.cell w.closed).length := by
    rw [hp]
    rfl
  have heven : Guard.isOdd (Guard.next p.base + 2#32) = false := by
    rw [hbase]
    exact Guard.isOdd_closing (_ + 1)
  have hclosed (rest : List (Word ι × BitVec 32))
      : (w.store (.guard p.cell, Guard.next p.base + 2#32) rest).closed = w.closed ++ [p] := by
    simp [store, heven, hcur]
  have hrest' (rest : List (Word ι × BitVec 32)) (c : ι)
      : (w.store (.guard p.cell, Guard.next p.base + 2#32) rest).Rest c := by
    by_cases hc : c = p.cell
    . subst hc
      refine ⟨?_, ?_, fun q hq => ?_⟩
      . simp [store, heven, hopened, hcur]
      . rw [hclosed, within_append, within_self, List.length_append]
        simp [store, hbase, Guard.closing]
      . rw [hclosed, within_append, within_self, List.getLast?_concat] at hq
        cases hq
        simpa [store, Holds] using hholds
    . refine (hrest c hc).frame ?_ ?_ ?_ fun i => ?_
      . simp [store, heven]
      . simp [hclosed, within_ne hc]
      . simp [store, hc]
      . simp [store]
  have hmark' (rest : List (Word ι × BitVec 32))
      : (w.store (.guard p.cell, Guard.next p.base + 2#32) rest).mem .mark
        = markAfter w.closed := by
    simpa [store] using hmark
  have hopened' (rest : List (Word ι × BitVec 32))
      : (w.store (.guard p.cell, Guard.next p.base + 2#32) rest).opened
        = (w.store (.guard p.cell, Guard.next p.base + 2#32) rest).closed := by
    rw [hclosed]
    simpa [store, heven] using hopened
  cases hm : p.mark with
  | none =>
    refine .idle rfl (hopened' _) ?_ ?_ (hrest' _)
    . rw [hclosed, withMark_concat, hm]
      simpa [store] using hmarked
    . rw [hclosed, markAfter_concat, hm, hmark']
      rfl
  | some v =>
    exact .marking w.closed p v hcur rfl hm (hopened' _) (hclosed _) hmarked (hmark' _) (hrest' _)

/-- The store of the mark. -/
theorem Phase.store_mark {v : BitVec 32} (hcur : w.cur = [p]) (hv : p.mark = some v)
    (hopened : w.opened = w.closed) (hclosed : w.closed = ps ++ [p])
    (hmarked : w.marked = withMark ps) (hrest : ∀ c, w.Rest c)
    : Phase L (w.store (.mark, v) []) := by
  refine .idle rfl hopened ?_ ?_ fun c => ?_
  . simp [store, hclosed, withMark_concat, hv, hmarked, hcur]
  . simp [store, hclosed, markAfter_concat, hv]
  . exact (hrest c).frame rfl rfl (by simp [store]) fun i => by simp [store]

omit [DecidableEq ι] in
theorem dataStores_drop {p : Publication ι E} {k : Nat} (hk : k < p.data.length)
    : dataStores p.cell k (p.data.drop k)
      = (.data p.cell k, p.data[k]) :: dataStores p.cell (k + 1) (p.data.drop (k + 1)) := by
  rw [List.drop_eq_getElem_cons hk]
  rfl

/-- What one step of the writer keeps. -/
theorem Inv.step {w' : Publisher ι E} (h : Inv L w) (hstep : Step L w w') : Inv L w' := by
  obtain ⟨hphase, hord⟩ := h
  cases hstep with
  | publish e htodo => exact ⟨hphase.publish htodo e, hord⟩
  | store x rest htodo =>
    cases hphase with
    | idle todo => simp [todo] at htodo
    | ready p cur todo opened marked mark hrest place =>
      obtain ⟨rfl, rfl⟩ := List.cons.inj (htodo.symm.trans todo)
      refine ⟨Phase.store_opens cur opened marked mark hrest place, ?_⟩
      have hodd : Guard.isOdd (Guard.next p.base + 1#32) = true := by
        rw [(hrest _).base place, (hrest _).guard, Guard.isOdd_next_closing]
      simpa [store, hodd, cur, opened] using (opened ▸ hord).concat place
    | writing p k cur todo opened marked mark hrest place guard holds le =>
      rcases Nat.lt_or_eq_of_le le with hk | rfl
      . rw [dataStores_drop hk, List.cons_append] at todo
        obtain ⟨rfl, rfl⟩ := List.cons.inj (htodo.symm.trans todo)
        exact ⟨Phase.store_data cur opened marked mark hrest place guard holds hk
          (List.getElem?_eq_getElem hk), hord⟩
      . rw [List.drop_length] at todo
        obtain ⟨rfl, rfl⟩ := List.cons.inj (htodo.symm.trans todo)
        refine ⟨Phase.store_closes cur opened marked mark hrest place holds, ?_⟩
        have heven : Guard.isOdd (Guard.next p.base + 2#32) = false := by
          rw [place]
          exact Guard.isOdd_closing (_ + 1)
        simpa [store, heven] using hord
    | marking ps p v cur todo value opened closed marked mark hrest =>
      obtain ⟨rfl, rfl⟩ := List.cons.inj (htodo.symm.trans todo)
      exact ⟨Phase.store_mark cur value opened closed marked hrest, hord⟩

theorem Inv.init (L : Layout ι E) : Inv L ({} : Publisher ι E) where
  phase := .idle rfl rfl rfl rfl fun c => ⟨rfl, rfl, fun p hp => nomatch hp⟩
  ordered := fun l p r h => by cases l <;> cases h

theorem advance_steps (L : Layout ι E) (w : Publisher ι E)
    : Relation.ReflTransGen (Step L) w w.advance := by
  unfold advance
  split
  next => exact .refl
  next x rest htodo => exact .single (.store w x rest htodo)

/-- Every reachable writer keeps the invariant. -/
theorem Reachable.inv (h : Reachable L w) : Inv L w := by
  induction h with
  | refl => exact Inv.init L
  | tail _ hstep ih => exact ih.step hstep

theorem Step.opened_le {w' : Publisher ι E} (h : Step L w w') : w.opened <+: w'.opened := by
  cases h with
  | publish => exact List.prefix_rfl
  | store x rest =>
    simp only [Publisher.store]
    split
    . split
      . exact List.prefix_append _ _
      . exact List.prefix_rfl
    . exact List.prefix_rfl

theorem Step.closed_le {w' : Publisher ι E} (h : Step L w w') : w.closed <+: w'.closed := by
  cases h with
  | publish => exact List.prefix_rfl
  | store x rest =>
    simp only [Publisher.store]
    split
    . split
      . exact List.prefix_rfl
      . exact List.prefix_append _ _
    . exact List.prefix_rfl

theorem Step.marked_le {w' : Publisher ι E} (h : Step L w w') : w.marked <+: w'.marked := by
  cases h with
  | publish => exact List.prefix_rfl
  | store x rest =>
    simp only [Publisher.store]
    split
    . exact List.prefix_append _ _
    . exact List.prefix_rfl

theorem within_le {qs : List (Publication ι E)} (c : ι) (h : ps <+: qs)
    : within c ps <+: within c qs := by
  obtain ⟨r, rfl⟩ := h
  exact ⟨within c r, (within_append c ps r).symm⟩

/-- A cell rests, or it is the one that is written and its guard is odd. -/
theorem Inv.rest_or (h : Inv L w) (c : ι)
    : w.Rest c ∨ Guard.isOdd (w.mem (.guard c)) = true
        ∧ (within c w.opened).length = (within c w.closed).length + 1 := by
  cases h.phase with
  | idle _ _ _ _ rest => exact .inl (rest c)
  | ready _ _ _ _ _ _ rest => exact .inl (rest c)
  | writing p _ _ _ opened _ _ rest _ guard =>
    by_cases hc : c = p.cell
    . subst hc
      exact .inr ⟨guard, by simp [opened, within_self]⟩
    . exact .inl (rest c hc)
  | marking _ _ _ _ _ _ _ _ _ _ rest => exact .inl (rest c)

theorem Inv.closed_le (h : Inv L w) : w.closed <+: w.opened := by
  cases h.phase with
  | idle _ opened => exact opened ▸ List.prefix_rfl
  | ready _ _ _ opened => exact opened ▸ List.prefix_rfl
  | writing _ _ _ _ opened => exact opened ▸ List.prefix_append _ _
  | marking _ _ _ _ _ _ opened => exact opened ▸ List.prefix_rfl

theorem Inv.rest_of_even (h : Inv L w) {c : ι} (heven : Guard.isOdd (w.mem (.guard c)) = false)
    : w.Rest c := by
  rcases h.rest_or c with hrest | ⟨hodd, -⟩
  . exact hrest
  . exact absurd hodd (by simp [heven])

theorem Ordered.length_data (h : Ordered L ps) (hp : p ∈ ps) : p.data.length = L.size := by
  obtain ⟨l, r, heq⟩ := List.append_of_mem hp
  rw [h l p r heq]
  exact L.length_data _ _

/-- What a reader knows that found the guard of the cell `c` to be `b` and has loaded `got` since. -/
structure Attempt (w : Publisher ι E) (c : ι) (b : BitVec 32) (got : List (BitVec 32)) (k : Nat)
    : Prop where
  guard : b = Guard.closing k
  le : k ≤ (within c w.closed).length
  got : (within c w.opened).length = k → ∀ p, (within c w.closed).getLast? = some p →
    got = p.data.take got.length

theorem Attempt.begin (h : Inv L w) {c : ι} (heven : Guard.isOdd (w.mem (.guard c)) = false)
    : w.Attempt c (w.mem (.guard c)) [] (within c w.closed).length where
  guard := (h.rest_of_even heven).guard
  le := Nat.le_refl _
  got := fun _ _ _ => List.take_zero.symm

/-- The writer cannot go back to a publication that it has left. -/
theorem Attempt.step {w' : Publisher ι E} {c : ι} {b : BitVec 32} {got : List (BitVec 32)} {k : Nat}
    (ha : w.Attempt c b got k) (h : Inv L w) (hstep : Step L w w') : w'.Attempt c b got k := by
  have hclosed := within_le c hstep.closed_le
  refine ⟨ha.guard, Nat.le_trans ha.le hclosed.length_le, fun hk p hp => ?_⟩
  have hle := within_le c hstep.opened_le
  have hle' := within_le c (h.step hstep).closed_le
  have hopened : (within c w.opened).length = k :=
    Nat.le_antisymm (hk ▸ hle.length_le)
      (Nat.le_trans ha.le (within_le c h.closed_le).length_le)
  have hsame : within c w.closed = within c w'.closed := hclosed.eq_of_length_le
    (Nat.le_trans hle'.length_le (hk ▸ ha.le))
  exact ha.got hopened p (hsame ▸ hp)

/-- A load of the next data word. -/
theorem Attempt.load {c : ι} {b : BitVec 32} {got : List (BitVec 32)} {k : Nat}
    (ha : w.Attempt c b got k) (h : Inv L w) (hlt : got.length < L.size)
    : w.Attempt c b (got ++ [w.mem (.data c got.length)]) k := by
  refine ⟨ha.guard, ha.le, fun hk p hp => ?_⟩
  have hmem := List.mem_filter.mp (List.mem_of_getLast? hp)
  have hcell : p.cell = c := of_decide_eq_true hmem.2
  have hlen : p.data.length = L.size := h.ordered.length_data (h.closed_le.subset hmem.1)
  have hrest : w.Rest c := by
    rcases h.rest_or c with hrest | ⟨-, hne⟩
    . exact hrest
    . have := ha.le
      omega
  have hword := hrest.holds p hp got.length (hlen ▸ hlt) _
    (List.getElem?_eq_getElem (hlen ▸ hlt))
  rw [hcell] at hword
  rw [List.length_append, List.length_singleton, List.take_add_one, ← ha.got hk p hp,
    List.getElem?_eq_getElem (hlen ▸ hlt), hword]
  rfl

/--
If the guard is found the same again, with fewer publications of the cell in between than the guard
has values, then nothing was published in between and the data words are those of the last
publication.
-/
theorem Attempt.finish {c : ι} {b : BitVec 32} {got : List (BitVec 32)} {k : Nat}
    (ha : w.Attempt c b got k) (h : Inv L w) (hlen : got.length = L.size) (hb : b = w.mem (.guard c))
    (heven : Guard.isOdd b = false) (hne : b ≠ 0)
    (hlt : (within c w.closed).length - k < Guard.period)
    : ∃ p, (within c w.closed).getLast? = some p ∧ got = p.data := by
  have hrest := h.rest_of_even (hb ▸ heven)
  have hk : k = (within c w.closed).length :=
    Guard.closing_inj ha.le hlt (by rw [← ha.guard, hb, hrest.guard])
  have hpos : within c w.closed ≠ [] := by
    intro hnil
    rw [hnil] at hk
    exact hne (by rw [ha.guard, hk]; rfl)
  refine ⟨_, List.getLast?_eq_some_getLast hpos, ?_⟩
  have hlast := List.getLast?_eq_some_getLast hpos
  have hdata := h.ordered.length_data
    (h.closed_le.subset (List.mem_filter.mp (List.mem_of_getLast? hlast)).1)
  have hgot := ha.got (by rw [hrest.opened, hk]) _ hlast
  rwa [hlen, ← hdata, List.take_length] at hgot

end

end Publisher

end Conc
