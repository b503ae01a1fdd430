import Mathlib.Algebra.Order.Group.Multiset
import Mathlib.Order.Defs.LinearOrder

/-!
This module contains the pairing heap of Lely (`upstream/src/util/pheap.c`), in which the CAN network
keeps its timers: the root is the first of the nodes, whatever was inserted and removed before.
-/

namespace LelyRtt.Heap

/-- A pointer to a `struct pnode` in a list of siblings. The parents follow from the shape. -/
inductive Pnode (ι κ : Type) where
  | null
  | node (id : ι) (key : κ) (child next : Pnode ι κ)
  deriving Repr

/-- A `struct pnode` whose `next` is `NULL`. -/
structure Tree (ι κ : Type) where
  id : ι
  key : κ
  child : Pnode ι κ
  deriving Repr

/-- `struct pheap` -/
structure Pheap (ι κ : Type) where
  root : Option (Tree ι κ)
  numNodes : Nat
  deriving Repr

variable {ι κ : Type}

/-- `pheap_init` -/
def Pheap.init : Pheap ι κ := ⟨none, 0⟩

section

variable (cmp : κ → κ → Int)

/-- `pnode_merge`, with a second node and a first one -/
def Tree.merge (n1 n2 : Tree ι κ) : Tree ι κ :=
  if cmp n1.key n2.key ≥ 0 then
    ⟨n2.id, n2.key, .node n1.id n1.key n1.child n2.child⟩
  else
    ⟨n1.id, n1.key, .node n2.id n2.key n2.child n1.child⟩

/-- `pnode_merge_pairs`, for a node and what its `next` points to -/
def Tree.mergePairs (node : Tree ι κ) : Pnode ι κ → Tree ι κ
  | .null => node
  | .node id key child next => mergePairs (node.merge cmp ⟨id, key, child⟩) next

/-- `pheap_insert` -/
def Pheap.insert (heap : Pheap ι κ) (id : ι) (key : κ) : Pheap ι κ :=
  let root : Tree ι κ :=
    match heap.root with
    | none => ⟨id, key, .null⟩
    | some root =>
      if cmp key root.key < 0 then
        ⟨id, key, .node root.id root.key root.child .null⟩
      else
        ⟨root.id, root.key, .node id key .null root.child⟩
  ⟨some root, heap.numNodes + 1⟩

/-- A node is taken out of the list that it is in; what it pointed to, and what stays. -/
def Pnode.cut [DecidableEq ι] (id : ι) : Pnode ι κ → Option (Pnode ι κ × Pnode ι κ)
  | .null => none
  | .node id' key child next =>
    if id' = id then
      some (child, next)
    else
      match child.cut id with
      | some (cut, child) => some (cut, .node id' key child next)
      | none => (next.cut id).map fun (cut, next) => (cut, .node id' key child next)

/-- The end of `pheap_remove`: the children of the node go back into the heap. -/
def Pheap.rejoin (root : Option (Tree ι κ)) (child : Pnode ι κ) : Option (Tree ι κ) :=
  match child with
  | .null => root
  | .node id key child next =>
    let child := Tree.mergePairs cmp ⟨id, key, child⟩ next
    match root with
    | none => some child
    | some root => some (root.merge cmp child)

/-- `pheap_remove` of a node that is in the heap -/
def Pheap.remove [DecidableEq ι] (heap : Pheap ι κ) (id : ι) : Pheap ι κ :=
  match heap.root with
  | none => heap
  | some root =>
    if root.id = id then
      ⟨rejoin cmp none root.child, heap.numNodes - 1⟩
    else
      match root.child.cut id with
      | none => heap
      | some (child, rest) => ⟨rejoin cmp (some { root with child := rest }) child, heap.numNodes - 1⟩

end

/-! ### What is in a heap -/

def Pnode.entries : Pnode ι κ → Multiset (ι × κ)
  | .null => 0
  | .node id key child next => (id, key) ::ₘ (child.entries + next.entries)

def Tree.entries (node : Tree ι κ) : Multiset (ι × κ) := (node.id, node.key) ::ₘ node.child.entries

def Pheap.rootEntries : Option (Tree ι κ) → Multiset (ι × κ)
  | none => 0
  | some root => root.entries

def Pheap.entries (heap : Pheap ι κ) : Multiset (ι × κ) := rootEntries heap.root

/-- No node comes before its parent. -/
def Pnode.Ordered [LE κ] : Pnode ι κ → Prop
  | .null => True
  | .node _ key child next => (∀ e ∈ child.entries, key ≤ e.2) ∧ child.Ordered ∧ next.Ordered

def Tree.Ordered [LE κ] (node : Tree ι κ) : Prop :=
  (∀ e ∈ node.child.entries, node.key ≤ e.2) ∧ node.child.Ordered

def Pheap.RootOrdered [LE κ] : Option (Tree ι κ) → Prop
  | none => True
  | some root => root.Ordered

/-- The order of the heap, and the number of its nodes. -/
structure Pheap.Ok [LE κ] (heap : Pheap ι κ) : Prop where
  ordered : RootOrdered heap.root
  numNodes_eq : heap.numNodes = heap.entries.card

section

variable {cmp : κ → κ → Int}

theorem Tree.entries_merge (n1 n2 : Tree ι κ)
    : (n1.merge cmp n2).entries = n1.entries + n2.entries := by
  unfold Tree.merge
  split
  . simp only [Tree.entries, Pnode.entries, Multiset.cons_add, Multiset.add_cons]
  . simp only [Tree.entries, Pnode.entries, Multiset.cons_add, Multiset.add_cons]
    rw [add_comm n2.child.entries, Multiset.cons_swap]

theorem Tree.entries_mergePairs (node : Tree ι κ) (next : Pnode ι κ)
    : (node.mergePairs cmp next).entries = node.entries + next.entries := by
  induction next generalizing node with
  | null => exact (add_zero _).symm
  | node id key child next _ ih =>
    rw [Tree.mergePairs, ih, Tree.entries_merge, add_assoc]
    simp only [Tree.entries, Pnode.entries, Multiset.cons_add]

theorem Pheap.rootEntries_rejoin (root : Option (Tree ι κ)) (child : Pnode ι κ)
    : rootEntries (rejoin cmp root child) = rootEntries root + child.entries := by
  cases child with
  | null => exact (add_zero _).symm
  | node id key child next =>
    have hpairs : (Tree.mergePairs cmp ⟨id, key, child⟩ next).entries
        = (Pnode.node id key child next).entries := by
      rw [Tree.entries_mergePairs]
      simp only [Tree.entries, Pnode.entries, Multiset.cons_add]
    cases root with
    | none => exact hpairs.trans (zero_add _).symm
    | some root => exact (Tree.entries_merge _ _).trans (congrArg _ hpairs)

theorem Pheap.entries_insert (heap : Pheap ι κ) (id : ι) (key : κ)
    : (heap.insert cmp id key).entries = (id, key) ::ₘ heap.entries := by
  unfold Pheap.insert Pheap.entries
  cases heap.root with
  | none => rfl
  | some root =>
    dsimp only [Pheap.rootEntries]
    split
    . simp only [Tree.entries, Pnode.entries, add_zero]
    . simp only [Tree.entries, Pnode.entries, zero_add]
      exact Multiset.cons_swap _ _ _

section

variable [DecidableEq ι]

theorem Pnode.entries_cut {id : ι} {nodes cut rest : Pnode ι κ} (h : nodes.cut id = some (cut, rest))
    : ∃ key, nodes.entries = (id, key) ::ₘ (rest.entries + cut.entries) := by
  induction nodes generalizing cut rest with
  | null => cases h
  | node id' key child next ihc ihn =>
    rw [Pnode.cut] at h
    split at h
    next hid =>
      cases h
      refine ⟨key, ?_⟩
      rw [Pnode.entries, hid, add_comm]
    next hid =>
      split at h
      next child' hcut =>
        cases h
        obtain ⟨key', hentries⟩ := ihc hcut
        refine ⟨key', ?_⟩
        simp only [Pnode.entries, hentries, Multiset.cons_add]
        rw [Multiset.cons_swap, add_right_comm]
      next hcut =>
        obtain ⟨⟨cut', next'⟩, hnext, hsome⟩ := Option.map_eq_some_iff.1 h
        cases hsome
        obtain ⟨key', hentries⟩ := ihn hnext
        refine ⟨key', ?_⟩
        simp only [Pnode.entries, hentries, Multiset.cons_add, Multiset.add_cons]
        rw [Multiset.cons_swap, add_assoc]

theorem Pnode.not_mem_of_cut_eq_none {id : ι} {nodes : Pnode ι κ} (h : nodes.cut id = none) (key : κ)
    : (id, key) ∉ nodes.entries := by
  induction nodes with
  | null => exact Multiset.notMem_zero _
  | node id' key' child next ihc ihn =>
    rw [Pnode.cut] at h
    split at h
    . cases h
    next hid =>
      split at h
      . cases h
      next hcut =>
        rw [Pnode.entries, Multiset.mem_cons, Multiset.mem_add]
        rintro (heq | hmem | hmem)
        . exact hid (Prod.mk.inj heq).1.symm
        . exact ihc hcut hmem
        . exact ihn (Option.map_eq_none_iff.1 h) hmem

/-- Exactly the node is removed. -/
theorem Pheap.entries_remove {heap : Pheap ι κ} {id : ι} {key : κ} (h : (id, key) ∈ heap.entries)
    : ∃ key', heap.entries = (id, key') ::ₘ (heap.remove cmp id).entries := by
  unfold Pheap.entries at h
  unfold Pheap.remove Pheap.entries
  cases hroot : heap.root with
  | none =>
    rw [hroot] at h
    exact absurd h (Multiset.notMem_zero _)
  | some root =>
    rw [hroot] at h
    dsimp only
    split
    next hid =>
      refine ⟨root.key, ?_⟩
      rw [Pheap.rootEntries_rejoin, ← hid]
      simp only [Pheap.rootEntries, Tree.entries, zero_add]
    next hid =>
      split
      next hcut =>
        rcases Multiset.mem_cons.1 h with heq | hmem
        . exact absurd (Prod.mk.inj heq).1.symm hid
        . exact absurd hmem (Pnode.not_mem_of_cut_eq_none hcut key)
      next child rest hcut =>
        obtain ⟨key', hentries⟩ := Pnode.entries_cut hcut
        refine ⟨key', ?_⟩
        rw [Pheap.rootEntries_rejoin]
        simp only [Pheap.rootEntries, Tree.entries, hentries, Multiset.cons_add]
        exact Multiset.cons_swap _ _ _

end

/-! ### The order -/

variable [LinearOrder κ] (hcmp : ∀ a b, cmp a b < 0 ↔ a < b)
include hcmp

theorem Tree.Ordered.merge {n1 n2 : Tree ι κ} (h1 : n1.Ordered) (h2 : n2.Ordered)
    : (n1.merge cmp n2).Ordered := by
  have hle {n n' : Tree ι κ} (h : n'.Ordered) (hkey : n.key ≤ n'.key) : ∀ e ∈ n'.entries, n.key ≤ e.2 := by
    intro e he
    rcases Multiset.mem_cons.1 he with rfl | he
    . exact hkey
    . exact hkey.trans (h.1 e he)
  unfold Tree.merge
  split
  next hge =>
    have hkey : n2.key ≤ n1.key := not_lt.1 fun hlt => absurd ((hcmp _ _).2 hlt) (not_lt.2 hge)
    refine ⟨?_, h1.1, h1.2, h2.2⟩
    intro e he
    rw [Pnode.entries, ← Multiset.cons_add, Multiset.mem_add] at he
    exact he.elim (hle h1 hkey e) (h2.1 e)
  next hlt =>
    have hkey : n1.key ≤ n2.key := ((hcmp _ _).1 (not_le.1 hlt)).le
    refine ⟨?_, h2.1, h2.2, h1.2⟩
    intro e he
    rw [Pnode.entries, ← Multiset.cons_add, Multiset.mem_add] at he
    exact he.elim (hle h2 hkey e) (h1.1 e)

theorem Tree.Ordered.mergePairs {node : Tree ι κ} {next : Pnode ι κ} (h : node.Ordered)
    (hnext : next.Ordered) : (node.mergePairs cmp next).Ordered := by
  induction next generalizing node with
  | null => exact h
  | node id key child next _ ih => exact ih (h.merge hcmp ⟨hnext.1, hnext.2.1⟩) hnext.2.2

theorem Pheap.RootOrdered.rejoin {root : Option (Tree ι κ)} {child : Pnode ι κ} (h : RootOrdered root)
    (hchild : child.Ordered) : RootOrdered (rejoin cmp root child) := by
  cases child with
  | null => exact h
  | node id key child next =>
    have hpairs : (Tree.mergePairs cmp ⟨id, key, child⟩ next).Ordered :=
      Tree.Ordered.mergePairs hcmp ⟨hchild.1, hchild.2.1⟩ hchild.2.2
    cases root with
    | none => exact hpairs
    | some root => exact Tree.Ordered.merge hcmp h hpairs

theorem Pheap.Ok.insert {heap : Pheap ι κ} (h : heap.Ok) (id : ι) (key : κ) : (heap.insert cmp id key).Ok := by
  refine ⟨?_, ?_⟩
  . have hordered := h.ordered
    unfold Pheap.insert
    cases hroot : heap.root with
    | none => exact ⟨fun _ he => absurd he (Multiset.notMem_zero _), trivial⟩
    | some root =>
      rw [hroot] at hordered
      dsimp only
      split
      next hlt =>
        have hkey := (hcmp _ _).1 hlt
        refine ⟨?_, hordered.1, hordered.2, trivial⟩
        intro e he
        rw [Pnode.entries, Multiset.mem_cons, Pnode.entries, add_zero] at he
        rcases he with rfl | he
        . exact hkey.le
        . exact hkey.le.trans (hordered.1 e he)
      next hge =>
        have hkey : root.key ≤ key := not_lt.1 fun hlt => hge ((hcmp _ _).2 hlt)
        refine ⟨?_, ⟨fun _ he => absurd he (Multiset.notMem_zero _), trivial, hordered.2⟩⟩
        intro e he
        rw [Pnode.entries, Multiset.mem_cons, Pnode.entries, zero_add] at he
        rcases he with rfl | he
        . exact hkey
        . exact hordered.1 e he
  . rw [Pheap.entries_insert, Multiset.card_cons, ← h.numNodes_eq]
    rfl

omit hcmp in
theorem Pnode.Ordered.cut [DecidableEq ι] {id : ι} {nodes cut rest : Pnode ι κ} (h : nodes.Ordered)
    (hcut : nodes.cut id = some (cut, rest)) : cut.Ordered ∧ rest.Ordered := by
  induction nodes generalizing cut rest with
  | null => cases hcut
  | node id' key child next ihc ihn =>
    rw [Pnode.cut] at hcut
    split at hcut
    . cases hcut
      exact ⟨h.2.1, h.2.2⟩
    . split at hcut
      next child' hchild =>
        cases hcut
        obtain ⟨hcut, hrest⟩ := ihc h.2.1 hchild
        obtain ⟨key', hentries⟩ := Pnode.entries_cut hchild
        refine ⟨hcut, ?_, hrest, h.2.2⟩
        intro e he
        refine h.1 e ?_
        rw [hentries]
        exact Multiset.mem_cons_of_mem (Multiset.mem_add.2 (.inl he))
      . obtain ⟨⟨cut', next'⟩, hnext, hsome⟩ := Option.map_eq_some_iff.1 hcut
        cases hsome
        obtain ⟨hcut, hrest⟩ := ihn h.2.2 hnext
        exact ⟨hcut, h.1, h.2.1, hrest⟩

theorem Pheap.Ok.remove [DecidableEq ι] {heap : Pheap ι κ} (h : heap.Ok) {id : ι} {key : κ}
    (hmem : (id, key) ∈ heap.entries) : (heap.remove cmp id).Ok := by
  obtain ⟨key', hentries⟩ : ∃ key', heap.entries = (id, key') ::ₘ (heap.remove cmp id).entries :=
    Pheap.entries_remove hmem
  have hcard : heap.numNodes = (heap.remove cmp id).entries.card + 1 := by
    rw [h.numNodes_eq, hentries, Multiset.card_cons]
  have hordered := h.ordered
  unfold Pheap.remove at hcard ⊢
  cases hroot : heap.root with
  | none =>
    rw [Pheap.entries, hroot] at hmem
    exact absurd hmem (Multiset.notMem_zero _)
  | some root =>
    rw [hroot] at hordered hcard
    dsimp only at hcard ⊢
    split at hcard
    next hid =>
      rw [if_pos hid]
      exact ⟨Pheap.RootOrdered.rejoin hcmp trivial hordered.2, Nat.sub_eq_of_eq_add hcard⟩
    next hid =>
      rw [if_neg hid]
      split at hcard
      next hcut => exact h
      next child rest hcut =>
        obtain ⟨hchild, hrest⟩ := hordered.2.cut hcut
        obtain ⟨key', hentries⟩ := Pnode.entries_cut hcut
        refine ⟨Pheap.RootOrdered.rejoin hcmp ⟨?_, hrest⟩ hchild, Nat.sub_eq_of_eq_add hcard⟩
        intro e he
        refine hordered.1 e ?_
        rw [hentries]
        exact Multiset.mem_cons_of_mem (Multiset.mem_add.2 (.inl he))

omit hcmp in
/-- The root comes before all other nodes. -/
theorem Pheap.Ok.root_le {heap : Pheap ι κ} (h : heap.Ok) {root : Tree ι κ} (hroot : heap.root = some root)
    : (root.id, root.key) ∈ heap.entries ∧ ∀ e ∈ heap.entries, root.key ≤ e.2 := by
  have hordered := h.ordered
  rw [hroot] at hordered
  rw [Pheap.entries, hroot]
  refine ⟨Multiset.mem_cons_self _ _, ?_⟩
  intro e he
  rcases Multiset.mem_cons.1 he with rfl | he
  . exact le_refl _
  . exact hordered.1 e he

end

end LelyRtt.Heap
