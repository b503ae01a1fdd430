import Mathlib

/-!
This module contains the single-producer single-consumer ring buffer of Lely
(`upstream/src/util/spscring.c`), in which its CAN channels and networks keep their frames, and the
proof that it is a queue for every interleaving of its two sides, also when the positions wrap.
-/

namespace LelyRtt.Ring

/-! ### The ring -/

/-- `struct spscring_ctx`, what one side knows of the ring; `end` is `limit`. -/
structure Ctx where
  size : Nat
  base : Nat
  pos : Nat
  limit : Nat
  deriving DecidableEq, Repr

/-- `struct spscring` without the signals: what each side knows, and the positions that it publishes. -/
structure Spscring where
  p : Ctx
  c : Ctx
  ppos : Nat
  cpos : Nat
  deriving DecidableEq, Repr

/-- `spscring_init` -/
def Spscring.init (size : Nat) : Spscring := ⟨⟨size, 0, 0, 0⟩, ⟨size, 0, 0, 0⟩, 0, 0⟩

namespace Ctx

/-- `end - pos` -/
def capacity (ctx : Ctx) : Nat := ctx.limit - ctx.pos

/-- `MIN(end, size) - pos` -/
def capacityNoWrap (ctx : Ctx) : Nat := min ctx.limit ctx.size - ctx.pos

/-- A position of the other side, which was just loaded, becomes the new limit; `size_t` has `w` bits. -/
def refresh (w : Nat) (ctx : Ctx) (other : Nat) : Ctx :=
  { ctx with limit := (other % 2 ^ w + (2 ^ w - ctx.base % 2 ^ w)) % 2 ^ w }

/-- The position is refreshed if less than `n` is known to be there, and then at most that is granted. -/
def alloc (w : Nat) (ctx : Ctx) (other n : Nat) : Nat × Ctx :=
  if n > ctx.capacity then
    let ctx := ctx.refresh w other
    (min n ctx.capacity, ctx)
  else
    (n, ctx)

/-- Up to the end of the buffer there is no need to know more than that all of it is there. -/
def refreshNoWrap (w : Nat) (ctx : Ctx) (other : Nat) : Ctx :=
  if ctx.limit < ctx.size then ctx.refresh w other else ctx

def allocNoWrap (w : Nat) (ctx : Ctx) (other n : Nat) : Nat × Ctx :=
  if n > ctx.capacityNoWrap then
    let ctx := ctx.refreshNoWrap w other
    (min n ctx.capacityNoWrap, ctx)
  else
    (n, ctx)

def commit (w : Nat) (ctx : Ctx) (n : Nat) : Ctx :=
  let ctx := { ctx with pos := ctx.pos + n }
  if ctx.pos ≥ ctx.size then
    { ctx with
      base := (ctx.base + ctx.size) % 2 ^ w
      pos := ctx.pos - ctx.size
      limit := ctx.limit - ctx.size }
  else
    ctx

/-- The position that is published. -/
def published (w : Nat) (ctx : Ctx) : Nat := (ctx.base + ctx.pos) % 2 ^ w

end Ctx

namespace Spscring

variable (w : Nat) (ring : Spscring)

/-- What the producer loads: it may go one round ahead of the consumer. -/
def ahead : Nat := (ring.cpos + ring.p.size) % 2 ^ w

/-- `spscring_p_capacity` -/
def pCapacity : Nat × Spscring :=
  let p := ring.p.refresh w (ring.ahead w)
  (p.capacity, { ring with p := p })

/-- `spscring_p_capacity_no_wrap` -/
def pCapacityNoWrap : Nat × Spscring :=
  let p := ring.p.refreshNoWrap w (ring.ahead w)
  (p.capacityNoWrap, { ring with p := p })

/-- `spscring_p_alloc` -/
def pAlloc (n : Nat) : Nat × Spscring :=
  let r := ring.p.alloc w (ring.ahead w) n
  (r.1, { ring with p := r.2 })

/-- `spscring_p_alloc_no_wrap` -/
def pAllocNoWrap (n : Nat) : Nat × Spscring :=
  let r := ring.p.allocNoWrap w (ring.ahead w) n
  (r.1, { ring with p := r.2 })

/-- `spscring_p_commit`, up to the signal -/
def pCommit (n : Nat) : Spscring :=
  let p := ring.p.commit w n
  { ring with p := p, ppos := p.published w }

/-- `spscring_c_capacity` -/
def cCapacity : Nat × Spscring :=
  let c := ring.c.refresh w ring.ppos
  (c.capacity, { ring with c := c })

/-- `spscring_c_capacity_no_wrap` -/
def cCapacityNoWrap : Nat × Spscring :=
  let c := ring.c.refreshNoWrap w ring.ppos
  (c.capacityNoWrap, { ring with c := c })

/-- `spscring_c_alloc` -/
def cAlloc (n : Nat) : Nat × Spscring :=
  let r := ring.c.alloc w ring.ppos n
  (r.1, { ring with c := r.2 })

/-- `spscring_c_alloc_no_wrap` -/
def cAllocNoWrap (n : Nat) : Nat × Spscring :=
  let r := ring.c.allocNoWrap w ring.ppos n
  (r.1, { ring with c := r.2 })

/-- `spscring_c_commit`, up to the signal -/
def cCommit (n : Nat) : Spscring :=
  let c := ring.c.commit w n
  { ring with c := c, cpos := c.published w }

end Spscring

/-! ### What one side knows -/

/-- A difference of positions is exact if it is less than what a `size_t` holds. -/
theorem sub_mod {m x y : Nat} (hle : x ≤ y) (hlt : y - x < m) : (y % m + (m - x % m)) % m = y - x := by
  have hpos : 0 < m := by omega
  have hx := Nat.div_add_mod x m
  have hy := Nat.div_add_mod y m
  have hxlt := Nat.mod_lt x hpos
  have hylt := Nat.mod_lt y hpos
  have hlow : x / m ≤ y / m := Nat.div_le_div_right hle
  have hhigh : y / m ≤ x / m + 1 := by
    rw [← Nat.add_div_right x hpos]
    exact Nat.div_le_div_right (by omega)
  obtain heq | heq : y / m = x / m ∨ y / m = x / m + 1 := by omega
  . rw [heq] at hy
    rw [show y % m + (m - x % m) = (y - x) + m by omega, Nat.add_mod_right, Nat.mod_eq_of_lt hlt]
  . rw [heq, Nat.mul_add, Nat.mul_one] at hy
    rw [show y % m + (m - x % m) = y - x by omega, Nat.mod_eq_of_lt hlt]

/--
One side of a ring of `size` slots has gone over `n` slots since the beginning and may go on to
`limit`; the assertions of `spscring.c` are part of it.
-/
structure Ctx.At (w size n limit : Nat) (ctx : Ctx) : Prop where
  size_eq : ctx.size = size
  pos_eq : ctx.pos = n % size
  base_eq : ctx.base % 2 ^ w = (n - n % size) % 2 ^ w
  limit_eq : ctx.limit = n % size + (limit - n)
  le : n ≤ limit
  le_size : limit ≤ n + size

namespace Ctx.At

variable {w size n limit o : Nat} {ctx : Ctx}

theorem capacity_eq (h : ctx.At w size n limit) : ctx.capacity = limit - n := by
  rw [capacity, h.limit_eq, h.pos_eq]
  omega

/-- The assertions at the beginning of each function. -/
theorem asserts (h : ctx.At w size n limit) (hsize : 0 < size)
    : ctx.pos < ctx.size ∧ ctx.pos ≤ ctx.limit ∧ ctx.limit - ctx.pos ≤ ctx.size := by
  have hle := h.le_size
  rw [h.size_eq, h.limit_eq, h.pos_eq]
  refine ⟨Nat.mod_lt n hsize, Nat.le_add_right _ _, ?_⟩
  omega

theorem refresh (h : ctx.At w size n limit) (hsize : 0 < size) (hw : 2 * size ≤ 2 ^ w) (hle : n ≤ o)
    (hother : o ≤ n + size) : (ctx.refresh w (o % 2 ^ w)).At w size n o := by
  have hlt := Nat.mod_lt n hsize
  have hmod := Nat.mod_le n size
  refine ⟨h.size_eq, h.pos_eq, h.base_eq, ?_, hle, hother⟩
  change (o % 2 ^ w % 2 ^ w + (2 ^ w - ctx.base % 2 ^ w)) % 2 ^ w = _
  rw [Nat.mod_mod, h.base_eq, sub_mod (by omega) (by omega)]
  omega

/-- What is granted was asked for, and is there. -/
theorem alloc (h : ctx.At w size n limit) (hsize : 0 < size) (hw : 2 * size ≤ 2 ^ w) (hle : limit ≤ o)
    (hother : o ≤ n + size) (m : Nat)
    : ∃ limit', limit ≤ limit' ∧ limit' ≤ o
      ∧ (ctx.alloc w (o % 2 ^ w) m).2.At w size n limit'
      ∧ (ctx.alloc w (o % 2 ^ w) m).1 = min m (limit' - n)
      ∧ (limit' < o → (ctx.alloc w (o % 2 ^ w) m).1 = m) := by
  have hn := h.le
  have hcapacity := h.capacity_eq
  unfold Ctx.alloc
  split
  next hmore =>
    have hfresh := h.refresh hsize hw (by omega) hother
    refine ⟨o, hle, Nat.le_refl _, hfresh, ?_, fun hlt => absurd hlt (Nat.lt_irrefl _)⟩
    exact congrArg (min m) hfresh.capacity_eq
  next hless => exact ⟨limit, Nat.le_refl _, hle, h, by omega, fun _ => rfl⟩

theorem refreshNoWrap (h : ctx.At w size n limit) (hsize : 0 < size) (hw : 2 * size ≤ 2 ^ w)
    (hle : limit ≤ o) (hother : o ≤ n + size)
    : ∃ limit', limit ≤ limit' ∧ limit' ≤ o ∧ (ctx.refreshNoWrap w (o % 2 ^ w)).At w size n limit' := by
  have hn := h.le
  unfold Ctx.refreshNoWrap
  split
  . exact ⟨o, hle, Nat.le_refl _, h.refresh hsize hw (by omega) hother⟩
  . exact ⟨limit, Nat.le_refl _, hle, h⟩

/-- Nothing beyond the end of the buffer is granted. -/
theorem allocNoWrap (h : ctx.At w size n limit) (hsize : 0 < size) (hw : 2 * size ≤ 2 ^ w)
    (hle : limit ≤ o) (hother : o ≤ n + size) (m : Nat)
    : ∃ limit', limit ≤ limit' ∧ limit' ≤ o
      ∧ (ctx.allocNoWrap w (o % 2 ^ w) m).2.At w size n limit'
      ∧ (ctx.allocNoWrap w (o % 2 ^ w) m).1 ≤ min m (limit' - n)
      ∧ n % size + (ctx.allocNoWrap w (o % 2 ^ w) m).1 ≤ size := by
  have hn := h.le
  have hlt := Nat.mod_lt n hsize
  have hgrant {ctx' : Ctx} {limit' : Nat} (h' : ctx'.At w size n limit')
      : ctx'.capacityNoWrap ≤ limit' - n ∧ n % size + ctx'.capacityNoWrap ≤ size := by
    rw [Ctx.capacityNoWrap, h'.limit_eq, h'.size_eq, h'.pos_eq]
    omega
  unfold Ctx.allocNoWrap
  split
  next hmore =>
    obtain ⟨limit', hlow, hhigh, hfresh⟩ := h.refreshNoWrap hsize hw hle hother
    have hfits := hgrant hfresh
    exact ⟨limit', hlow, hhigh, hfresh, by dsimp only; omega, by dsimp only; omega⟩
  next hless =>
    have hfits := hgrant h
    exact ⟨limit, Nat.le_refl _, hle, h, by dsimp only; omega, by dsimp only; omega⟩

theorem commit (h : ctx.At w size n limit) (hsize : 0 < size) {k : Nat} (hk : k ≤ limit - n)
    : (ctx.commit w k).At w size (n + k) limit ∧ (ctx.commit w k).published w = (n + k) % 2 ^ w := by
  have hlt := Nat.mod_lt n hsize
  have hmod := Nat.mod_le n size
  have hle := h.le
  have hle' := h.le_size
  have hnext : (n + k) % size = if n % size + k ≥ size then n % size + k - size else n % size + k := by
    rw [← Nat.mod_add_mod]
    split
    next hwrap => rw [Nat.mod_eq_sub_mod hwrap, Nat.mod_eq_of_lt (by omega)]
    next hwrap => exact Nat.mod_eq_of_lt (by omega)
  have hat : (ctx.commit w k).At w size (n + k) limit := by
    unfold Ctx.commit
    dsimp only
    rw [h.size_eq, h.pos_eq]
    split
    next hwrap =>
      rw [if_pos hwrap] at hnext
      refine ⟨rfl, hnext.symm, ?_, ?_, by omega, by omega⟩
      . dsimp only
        rw [Nat.mod_mod, Nat.add_mod, h.base_eq, ← Nat.add_mod]
        congr 1
        omega
      . dsimp only
        rw [h.limit_eq, hnext]
        omega
    next hwrap =>
      rw [if_neg hwrap] at hnext
      refine ⟨rfl, hnext.symm, ?_, ?_, by omega, by omega⟩
      . dsimp only
        rw [h.base_eq, hnext]
        congr 1
        omega
      . dsimp only
        rw [h.limit_eq, hnext]
        omega
  refine ⟨hat, ?_⟩
  rw [published, hat.pos_eq, Nat.add_mod, hat.base_eq, ← Nat.add_mod]
  congr 1
  have := Nat.mod_le (n + k) size
  omega

end Ctx.At

/-! ### The two sides -/

/--
A ring with the slots that its two sides share, and the history of what went through it. `staged` is
what the producer has written and not committed, `taken` what the consumer has read and not committed.
-/
structure Chan (α : Type) where
  ring : Spscring
  slots : Nat → Option α
  sent : List α
  staged : List α
  taken : List (Option α)
  received : List (Option α)

variable {α : Type} {w size : Nat} {chan chan' : Chan α}

/-- Nothing has been written. -/
def Chan.init (α : Type) (size : Nat) : Chan α := ⟨.init size, fun _ => none, [], [], [], []⟩

/--
The steps of the two sides, in any order. Each contains one access to what they share. The producer
writes slots that it was granted, one by one, and commits what it has written; the consumer does so
with what it reads.
-/
inductive Chan.Step (w : Nat) : Chan α → Chan α → Prop
  | pCapacity {chan : Chan α} : Step w chan { chan with ring := (chan.ring.pCapacity w).2 }
  | pCapacityNoWrap {chan : Chan α} : Step w chan { chan with ring := (chan.ring.pCapacityNoWrap w).2 }
  | pAlloc {chan : Chan α} (n : Nat) : Step w chan { chan with ring := (chan.ring.pAlloc w n).2 }
  | pAllocNoWrap {chan : Chan α} (n : Nat) :
    Step w chan { chan with ring := (chan.ring.pAllocNoWrap w n).2 }
  | write {chan : Chan α} (x : α) (hgranted : chan.staged.length < chan.ring.p.capacity) :
    Step w chan
      { chan with
        slots := Function.update chan.slots
          ((chan.ring.p.pos + chan.staged.length) % chan.ring.p.size) (some x)
        staged := chan.staged ++ [x] }
  | pCommit {chan : Chan α} (n : Nat) (hstaged : n ≤ chan.staged.length) :
    Step w chan
      { chan with
        ring := chan.ring.pCommit w n
        sent := chan.sent ++ chan.staged.take n
        staged := chan.staged.drop n }
  | cCapacity {chan : Chan α} : Step w chan { chan with ring := (chan.ring.cCapacity w).2 }
  | cCapacityNoWrap {chan : Chan α} : Step w chan { chan with ring := (chan.ring.cCapacityNoWrap w).2 }
  | cAlloc {chan : Chan α} (n : Nat) : Step w chan { chan with ring := (chan.ring.cAlloc w n).2 }
  | cAllocNoWrap {chan : Chan α} (n : Nat) :
    Step w chan { chan with ring := (chan.ring.cAllocNoWrap w n).2 }
  | read {chan : Chan α} (hgranted : chan.taken.length < chan.ring.c.capacity) :
    Step w chan
      { chan with
        taken := chan.taken
          ++ [chan.slots ((chan.ring.c.pos + chan.taken.length) % chan.ring.c.size)] }
  | cCommit {chan : Chan α} (n : Nat) (htaken : n ≤ chan.taken.length) :
    Step w chan
      { chan with
        ring := chan.ring.cCommit w n
        received := chan.received ++ chan.taken.take n
        taken := chan.taken.drop n }

inductive Chan.Reaches (w size : Nat) : Chan α → Prop
  | init : Reaches w size (.init α size)
  | step {chan chan' : Chan α} (h : Reaches w size chan) (hstep : Step w chan chan') : Reaches w size chan'

/--
The ring with `sent` and `received` items so far. `plimit` and `climit` are how far the two sides know
that they may go, which may be less than they could.
-/
structure Spscring.Ok (w size sent received : Nat) (ring : Spscring) (plimit climit : Nat) : Prop where
  p : ring.p.At w size sent plimit
  c : ring.c.At w size received climit
  plimit_le : plimit ≤ received + size
  climit_le : climit ≤ sent
  ppos : ring.ppos = sent % 2 ^ w
  cpos : ring.cpos = received % 2 ^ w

namespace Spscring.Ok

variable {sent received plimit climit : Nat} {ring : Spscring}

theorem ahead_eq (h : ring.Ok w size sent received plimit climit)
    : ring.ahead w = (received + size) % 2 ^ w := by
  rw [ahead, h.cpos, h.p.size_eq, Nat.mod_add_mod]

theorem order (h : ring.Ok w size sent received plimit climit)
    : received ≤ climit ∧ climit ≤ sent ∧ sent ≤ plimit ∧ plimit ≤ received + size :=
  ⟨h.c.le, h.climit_le, h.p.le, h.plimit_le⟩

variable (hsize : 0 < size) (hw : 2 * size ≤ 2 ^ w)
include hsize hw

/-- `spscring_p_capacity` returns the number of free slots. -/
theorem pCapacity (h : ring.Ok w size sent received plimit climit)
    : (ring.pCapacity w).2.Ok w size sent received (received + size) climit
      ∧ (ring.pCapacity w).1 = received + size - sent := by
  have horder := h.order
  have hp := h.p.refresh hsize hw (o := received + size) (by omega) (by omega)
  rw [← h.ahead_eq] at hp
  exact ⟨⟨hp, h.c, Nat.le_refl _, h.climit_le, h.ppos, h.cpos⟩, hp.capacity_eq⟩

/-- `spscring_c_capacity` returns the number of items. -/
theorem cCapacity (h : ring.Ok w size sent received plimit climit)
    : (ring.cCapacity w).2.Ok w size sent received plimit sent
      ∧ (ring.cCapacity w).1 = sent - received := by
  have horder := h.order
  have hc := h.c.refresh hsize hw (o := sent) (by omega) (by omega)
  rw [← h.ppos] at hc
  exact ⟨⟨h.p, hc, h.plimit_le, Nat.le_refl _, h.ppos, h.cpos⟩, hc.capacity_eq⟩

theorem pCapacityNoWrap (h : ring.Ok w size sent received plimit climit)
    : ∃ plimit' ≥ plimit, (ring.pCapacityNoWrap w).2.Ok w size sent received plimit' climit := by
  have horder := h.order
  obtain ⟨plimit', hle, hle', hp⟩ := h.p.refreshNoWrap hsize hw (o := received + size) (by omega)
    (by omega)
  rw [← h.ahead_eq] at hp
  exact ⟨plimit', hle, hp, h.c, hle', h.climit_le, h.ppos, h.cpos⟩

theorem cCapacityNoWrap (h : ring.Ok w size sent received plimit climit)
    : ∃ climit' ≥ climit, (ring.cCapacityNoWrap w).2.Ok w size sent received plimit climit' := by
  have horder := h.order
  obtain ⟨climit', hle, hle', hc⟩ := h.c.refreshNoWrap hsize hw (o := sent) (by omega) (by omega)
  rw [← h.ppos] at hc
  exact ⟨climit', hle, h.p, hc, h.plimit_le, hle', h.ppos, h.cpos⟩

theorem pAlloc (h : ring.Ok w size sent received plimit climit) (n : Nat)
    : ∃ plimit' ≥ plimit, (ring.pAlloc w n).2.Ok w size sent received plimit' climit := by
  have horder := h.order
  obtain ⟨plimit', hle, hle', hp, -⟩ := h.p.alloc hsize hw (o := received + size) (by omega)
    (by omega) n
  rw [← h.ahead_eq] at hp
  exact ⟨plimit', hle, hp, h.c, hle', h.climit_le, h.ppos, h.cpos⟩

theorem pAllocNoWrap (h : ring.Ok w size sent received plimit climit) (n : Nat)
    : ∃ plimit' ≥ plimit, (ring.pAllocNoWrap w n).2.Ok w size sent received plimit' climit := by
  have horder := h.order
  obtain ⟨plimit', hle, hle', hp, -⟩ := h.p.allocNoWrap hsize hw (o := received + size) (by omega)
    (by omega) n
  rw [← h.ahead_eq] at hp
  exact ⟨plimit', hle, hp, h.c, hle', h.climit_le, h.ppos, h.cpos⟩

theorem cAlloc (h : ring.Ok w size sent received plimit climit) (n : Nat)
    : ∃ climit' ≥ climit, (ring.cAlloc w n).2.Ok w size sent received plimit climit' := by
  have horder := h.order
  obtain ⟨climit', hle, hle', hc, -⟩ := h.c.alloc hsize hw (o := sent) (by omega) (by omega) n
  rw [← h.ppos] at hc
  exact ⟨climit', hle, h.p, hc, h.plimit_le, hle', h.ppos, h.cpos⟩

theorem cAllocNoWrap (h : ring.Ok w size sent received plimit climit) (n : Nat)
    : ∃ climit' ≥ climit, (ring.cAllocNoWrap w n).2.Ok w size sent received plimit climit' := by
  have horder := h.order
  obtain ⟨climit', hle, hle', hc, -⟩ := h.c.allocNoWrap hsize hw (o := sent) (by omega) (by omega) n
  rw [← h.ppos] at hc
  exact ⟨climit', hle, h.p, hc, h.plimit_le, hle', h.ppos, h.cpos⟩

omit hw in
theorem pCommit (h : ring.Ok w size sent received plimit climit) {n : Nat} (hn : n ≤ plimit - sent)
    : (ring.pCommit w n).Ok w size (sent + n) received plimit climit := by
  have horder := h.order
  obtain ⟨hp, hpos⟩ := h.p.commit hsize hn
  exact ⟨hp, h.c, h.plimit_le, by omega, hpos, h.cpos⟩

omit hw in
theorem cCommit (h : ring.Ok w size sent received plimit climit) {n : Nat} (hn : n ≤ climit - received)
    : (ring.cCommit w n).Ok w size sent (received + n) plimit climit := by
  have horder := h.order
  obtain ⟨hc, hpos⟩ := h.c.commit hsize hn
  exact ⟨h.p, hc, by omega, h.climit_le, h.ppos, hpos⟩

end Spscring.Ok

/-- Two positions less than a round apart are different slots. -/
theorem mod_ne_mod {i j : Nat} (hlt : i < j) (hround : j - i < size) : i % size ≠ j % size := by
  intro heq
  have hzero := Nat.sub_mod_eq_zero_of_mod_eq heq.symm
  rw [Nat.mod_eq_of_lt hround] at hzero
  omega

/--
What is in the slots, from the next item that the consumer commits to the last one that the producer
has written; and what the consumer has read is what was sent.
-/
structure Chan.Ok (w size : Nat) (chan : Chan α) (plimit climit : Nat) : Prop where
  ring : chan.ring.Ok w size chan.sent.length chan.received.length plimit climit
  staged_le : chan.staged.length ≤ plimit - chan.sent.length
  taken_le : chan.taken.length ≤ climit - chan.received.length
  slots : ∀ i, chan.received.length ≤ i → i < chan.sent.length + chan.staged.length →
    chan.slots (i % size) = (chan.sent ++ chan.staged)[i]?
  read : chan.received ++ chan.taken
    = (chan.sent.take (chan.received.length + chan.taken.length)).map some

namespace Chan.Ok

variable {plimit climit plimit' climit' : Nat}

/-- The two sides only learn how far they may go. -/
theorem learn (h : chan.Ok w size plimit climit) {ring : Spscring} (hp : plimit ≤ plimit')
    (hc : climit ≤ climit')
    (hring : ring.Ok w size chan.sent.length chan.received.length plimit' climit')
    : { chan with ring := ring }.Ok w size plimit' climit' := by
  have hstaged := h.staged_le
  have htaken := h.taken_le
  exact ⟨hring, by dsimp only; omega, by dsimp only; omega, h.slots, h.read⟩

theorem write (h : chan.Ok w size plimit climit) (x : α)
    (hgranted : chan.staged.length < chan.ring.p.capacity)
    : { chan with
        slots := Function.update chan.slots
          ((chan.ring.p.pos + chan.staged.length) % chan.ring.p.size) (some x)
        staged := chan.staged ++ [x] }.Ok w size plimit climit := by
  have horder := h.ring.order
  rw [h.ring.p.capacity_eq] at hgranted
  have hslot : (chan.ring.p.pos + chan.staged.length) % chan.ring.p.size
      = (chan.sent.length + chan.staged.length) % size := by
    rw [h.ring.p.pos_eq, h.ring.p.size_eq, Nat.mod_add_mod]
  refine ⟨h.ring, ?_, h.taken_le, ?_, h.read⟩
  . simp only [List.length_append, List.length_singleton]
    omega
  . intro i hlow hhigh
    dsimp only at hlow hhigh ⊢
    rw [List.length_append, List.length_singleton] at hhigh
    rw [hslot, ← List.append_assoc]
    by_cases hi : i = chan.sent.length + chan.staged.length
    . rw [hi, Function.update_self, ← List.length_append, List.getElem?_concat_length]
    . have hne : i % size ≠ (chan.sent.length + chan.staged.length) % size :=
        mod_ne_mod (by omega) (by omega)
      rw [Function.update_of_ne hne, h.slots i hlow (by omega)]
      exact (List.getElem?_append_left (by rw [List.length_append]; omega)).symm

theorem pCommit (h : chan.Ok w size plimit climit) (hsize : 0 < size) {n : Nat}
    (hstaged : n ≤ chan.staged.length)
    : { chan with
        ring := chan.ring.pCommit w n
        sent := chan.sent ++ chan.staged.take n
        staged := chan.staged.drop n }.Ok w size plimit climit := by
  have horder := h.ring.order
  have hle := h.staged_le
  have htaken := h.taken_le
  have hlen : (chan.sent ++ chan.staged.take n).length = chan.sent.length + n := by
    rw [List.length_append, List.length_take, Nat.min_eq_left hstaged]
  refine ⟨?_, ?_, h.taken_le, ?_, ?_⟩
  . dsimp only
    rw [hlen]
    exact h.ring.pCommit hsize (by omega)
  . dsimp only
    rw [hlen, List.length_drop]
    omega
  . intro i hlow hhigh
    dsimp only at hlow hhigh ⊢
    rw [hlen, List.length_drop] at hhigh
    rw [List.append_assoc, List.take_append_drop]
    exact h.slots i hlow (by omega)
  . dsimp only
    rw [h.read, List.take_append_of_le_length (by omega)]

theorem cRead (h : chan.Ok w size plimit climit) (hgranted : chan.taken.length < chan.ring.c.capacity)
    : { chan with
        taken := chan.taken
          ++ [chan.slots ((chan.ring.c.pos + chan.taken.length) % chan.ring.c.size)] }.Ok
      w size plimit climit := by
  have horder := h.ring.order
  rw [h.ring.c.capacity_eq] at hgranted
  have hslot : (chan.ring.c.pos + chan.taken.length) % chan.ring.c.size
      = (chan.received.length + chan.taken.length) % size := by
    rw [h.ring.c.pos_eq, h.ring.c.size_eq, Nat.mod_add_mod]
  have hlt : chan.received.length + chan.taken.length < chan.sent.length := by omega
  refine ⟨h.ring, h.staged_le, ?_, h.slots, ?_⟩
  . simp only [List.length_append, List.length_singleton]
    omega
  . simp only [List.length_append, List.length_singleton]
    rw [hslot, h.slots _ (by omega) (by omega), List.getElem?_append_left hlt, ← List.append_assoc,
      h.read, ← Nat.add_assoc, List.take_add_one, List.map_append, List.getElem?_eq_getElem hlt]
    rfl

theorem cCommit (h : chan.Ok w size plimit climit) (hsize : 0 < size) {n : Nat}
    (htaken : n ≤ chan.taken.length)
    : { chan with
        ring := chan.ring.cCommit w n
        received := chan.received ++ chan.taken.take n
        taken := chan.taken.drop n }.Ok w size plimit climit := by
  have horder := h.ring.order
  have hle := h.taken_le
  have hlen : (chan.received ++ chan.taken.take n).length = chan.received.length + n := by
    rw [List.length_append, List.length_take, Nat.min_eq_left htaken]
  refine ⟨?_, h.staged_le, ?_, ?_, ?_⟩
  . dsimp only
    rw [hlen]
    exact h.ring.cCommit hsize (by omega)
  . dsimp only
    rw [hlen, List.length_drop]
    omega
  . intro i hlow hhigh
    dsimp only at hlow hhigh ⊢
    rw [hlen] at hlow
    exact h.slots i (by omega) hhigh
  . dsimp only
    rw [hlen, List.length_drop, List.append_assoc, List.take_append_drop, h.read]
    congr 2
    omega

theorem step (h : chan.Ok w size plimit climit) (hsize : 0 < size) (hw : 2 * size ≤ 2 ^ w)
    (hstep : Chan.Step w chan chan') : ∃ plimit climit, chan'.Ok w size plimit climit := by
  have horder := h.ring.order
  cases hstep with
  | pCapacity =>
    exact ⟨_, _, h.learn (by omega) (Nat.le_refl _) (h.ring.pCapacity hsize hw).1⟩
  | pCapacityNoWrap =>
    obtain ⟨_, hle, hring⟩ := h.ring.pCapacityNoWrap hsize hw
    exact ⟨_, _, h.learn hle (Nat.le_refl _) hring⟩
  | pAlloc n =>
    obtain ⟨_, hle, hring⟩ := h.ring.pAlloc hsize hw n
    exact ⟨_, _, h.learn hle (Nat.le_refl _) hring⟩
  | pAllocNoWrap n =>
    obtain ⟨_, hle, hring⟩ := h.ring.pAllocNoWrap hsize hw n
    exact ⟨_, _, h.learn hle (Nat.le_refl _) hring⟩
  | write x hgranted => exact ⟨_, _, h.write x hgranted⟩
  | pCommit n hstaged => exact ⟨_, _, h.pCommit hsize hstaged⟩
  | cCapacity => exact ⟨_, _, h.learn (Nat.le_refl _) (by omega) (h.ring.cCapacity hsize hw).1⟩
  | cCapacityNoWrap =>
    obtain ⟨_, hle, hring⟩ := h.ring.cCapacityNoWrap hsize hw
    exact ⟨_, _, h.learn (Nat.le_refl _) hle hring⟩
  | cAlloc n =>
    obtain ⟨_, hle, hring⟩ := h.ring.cAlloc hsize hw n
    exact ⟨_, _, h.learn (Nat.le_refl _) hle hring⟩
  | cAllocNoWrap n =>
    obtain ⟨_, hle, hring⟩ := h.ring.cAllocNoWrap hsize hw n
    exact ⟨_, _, h.learn (Nat.le_refl _) hle hring⟩
  | read hgranted => exact ⟨_, _, h.cRead hgranted⟩
  | cCommit n htaken => exact ⟨_, _, h.cCommit hsize htaken⟩

end Chan.Ok

theorem Chan.Reaches.ok (h : chan.Reaches w size) (hsize : 0 < size) (hw : 2 * size ≤ 2 ^ w)
    : ∃ plimit climit, chan.Ok w size plimit climit := by
  induction h with
  | init =>
    have hat : (⟨size, 0, 0, 0⟩ : Ctx).At w size 0 0 :=
      ⟨rfl, by simp, by simp, by simp, Nat.le_refl _, Nat.zero_le _⟩
    refine ⟨0, 0, ⟨hat, hat, Nat.zero_le _, Nat.le_refl _, by simp [Chan.init, Spscring.init],
      by simp [Chan.init, Spscring.init]⟩, by simp [Chan.init], by simp [Chan.init], ?_, by simp [Chan.init]⟩
    intro i _ hi
    simp [Chan.init] at hi
  | step _ hstep ih =>
    obtain ⟨_, _, ih⟩ := ih
    exact ih.step hsize hw hstep

/--
A ring of a positive size is a queue for every interleaving of its two sides and however often the
positions have come around: what the consumer has read is what the producer has committed, in this
order, nothing is overwritten before it is read, at most `size` items are under way, and the assertions
of `spscring.c` hold. A refreshed capacity is exact on both sides.
-/
theorem ring_fifo (h : chan.Reaches w size) (hsize : 0 < size) (hw : 2 * size ≤ 2 ^ w)
    : chan.received ++ chan.taken
        = (chan.sent.take (chan.received.length + chan.taken.length)).map some
      ∧ chan.received.length + chan.taken.length ≤ chan.sent.length
      ∧ chan.sent.length + chan.staged.length ≤ chan.received.length + size
      ∧ (chan.ring.cCapacity w).1 = chan.sent.length - chan.received.length
      ∧ (chan.ring.pCapacity w).1 = chan.received.length + size - chan.sent.length
      ∧ ∀ ctx ∈ [chan.ring.p, chan.ring.c],
        ctx.pos < ctx.size ∧ ctx.pos ≤ ctx.limit ∧ ctx.limit - ctx.pos ≤ ctx.size := by
  obtain ⟨plimit, climit, hok⟩ := h.ok hsize hw
  have horder := hok.ring.order
  have hstaged := hok.staged_le
  have htaken := hok.taken_le
  refine ⟨hok.read, by omega, by omega, (hok.ring.cCapacity hsize hw).2, (hok.ring.pCapacity hsize hw).2,
    ?_⟩
  intro ctx hctx
  rcases List.mem_cons.1 hctx with rfl | hctx
  . exact hok.ring.p.asserts hsize
  . rw [List.mem_singleton.1 hctx]
    exact hok.ring.c.asserts hsize

/-- A ring of four slots, with positions of eight bits, hands over one item. -/
theorem ring_fifo_item : ∃ chan : Chan Nat,
    chan.taken = [some 7]
      ∧ chan.received ++ chan.taken
        = (chan.sent.take (chan.received.length + chan.taken.length)).map some := by
  have h : Chan.Reaches 8 4 (.init Nat 4) := .init
  have hcommitted := ((h.step (.pAlloc 1)).step (.write 7 (by decide))).step (.pCommit 1 (by decide))
  have hread := (hcommitted.step (.cAlloc 1)).step (.read (by decide))
  exact ⟨_, rfl, (ring_fifo hread (by decide) (by decide)).1⟩

end LelyRtt.Ring
