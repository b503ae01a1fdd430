import LelyRtt.Basic
import Mathlib.Data.List.Flatten
import Mathlib.Data.List.Nodup
import Mathlib.Logic.Function.Basic
import Mathlib.Tactic.Common

/-!
This module contains the download indications that the local object dictionary bridge puts over those
of a device: their installation with its two failure exits, and their removal.
-/

namespace LelyRtt.LocalOd.Hooks

/-- `CO_ACCESS_WRITE` -/
def accessWrite : BitVec 32 := 0x02#32

/-- `CO_SDO_AC_ERROR` -/
def acError : BitVec 32 := 0x08000000#32

/-- `LELY_RTT_LOCAL_OD_INDEX_MIN` -/
def indexMin : BitVec 16 := 0x2000#16

/-- `LELY_RTT_LOCAL_OD_INDEX_MAX` -/
def indexMax : BitVec 16 := 0x5fff#16

/-- A `co_sub_dn_ind_t *`: the default of Lely, that of the bridge, or another one. -/
inductive DnInd (φ : Type) where
  | default
  | localOd
  | other (f : φ)
  deriving DecidableEq, Repr

/-- The indication of a sub-object and its data; both pointers may be null. -/
@[ext]
structure Ind (φ ptr : Type) where
  dnInd : Option (DnInd φ)
  dnData : Option ptr
  deriving DecidableEq, Repr

/-- `struct lely_rtt_local_od_hook` -/
structure Hook (σ φ ptr : Type) where
  sub : σ
  previous : Option (DnInd φ)
  previousData : Option ptr
  deriving DecidableEq, Repr

structure Obj (σ : Type) where
  idx : BitVec 16
  subs : List σ

/-- A device: its objects, whose sub-objects are all different. -/
structure Dev (σ : Type) where
  objs : List (Obj σ)
  access : σ → BitVec 32
  nodup : (objs.flatMap (·.subs)).Nodup

/-- The `local_od_change_*` fields. -/
structure Change where
  seq : BitVec 32 := 0
  index : BitVec 32 := 0
  subindex : BitVec 32 := 0
  source : BitVec 32 := 0
  size : BitVec 32 := 0
  deriving DecidableEq, Repr

/-- The runtime, the list of its hooks with their addresses, and the indications of the device. -/
structure Runtime (σ φ ptr : Type) where
  masterDev : Option (Dev σ)
  localOdHooks : List (ptr × Hook σ φ ptr)
  ind : σ → Ind φ ptr
  change : Change
  apiWriteActive : Bool

/--
What `rt_calloc` returns at each call: memory that no other call has returned. What `rt_free` gets back
is not tracked.
-/
structure Allocator (ptr : Type) where
  calloc : Nat → Option ptr
  distinct : ∀ i j p, calloc i = some p → calloc j = some p → i = j

variable {σ φ ptr : Type} [DecidableEq σ] [DecidableEq φ] [DecidableEq ptr]

/-- `co_sub_set_dn_ind` -/
def setDnInd (ind : σ → Ind φ ptr) (sub : σ) (f : Option (DnInd φ)) (data : Option ptr) : σ → Ind φ ptr :=
  Function.update ind sub ⟨some (f.getD .default), if f.isSome then data else none⟩

/-- `lely_rtt_local_od_reset` -/
def reset (rt : Runtime σ φ ptr) : Runtime σ φ ptr :=
  { rt with change := {}, apiWriteActive := false }

/-- The loop of `lely_rtt_local_od_unbind`. -/
def unhook : List (ptr × Hook σ φ ptr) → (σ → Ind φ ptr) → σ → Ind φ ptr
  | [], ind => ind
  | (p, hook) :: hooks, ind =>
    if ind hook.sub = ⟨some .localOd, some p⟩ then
      unhook hooks (setDnInd ind hook.sub hook.previous hook.previousData)
    else
      unhook hooks ind

/-- `lely_rtt_local_od_unbind` -/
def unbind (rt : Runtime σ φ ptr) : Runtime σ φ ptr :=
  { rt with
    ind := unhook rt.localOdHooks rt.ind
    localOdHooks := []
    apiWriteActive := false }

/-- The runtime once the sub-object has a hook at `p`. -/
def Runtime.install (rt : Runtime σ φ ptr) (sub : σ) (p : ptr) : Runtime σ φ ptr :=
  { rt with
    localOdHooks := (p, ⟨sub, (rt.ind sub).dnInd, (rt.ind sub).dnData⟩) :: rt.localOdHooks
    ind := setDnInd rt.ind sub (some .localOd) (some p) }

/-- The inner loop of `lely_rtt_local_od_bind`, with the number of the next allocation. -/
def bindSubs (al : Allocator ptr) (access : σ → BitVec 32)
    : List σ → Runtime σ φ ptr → Nat → RtErr × Runtime σ φ ptr × Nat
  | [], rt, calls => (.ok, rt, calls)
  | sub :: subs, rt, calls =>
    if access sub &&& accessWrite = 0 then
      bindSubs al access subs rt calls
    else
      match al.calloc calls with
      | none => (.nomem, unbind rt, calls + 1)
      | some p =>
        if (rt.ind sub).dnInd = none then
          (.error, unbind rt, calls + 1)
        else
          bindSubs al access subs (rt.install sub p) (calls + 1)

/-- The outer loop of `lely_rtt_local_od_bind`. -/
def bindObjs (al : Allocator ptr) (access : σ → BitVec 32)
    : List (Obj σ) → Runtime σ φ ptr → Nat → RtErr × Runtime σ φ ptr × Nat
  | [], rt, calls => (.ok, rt, calls)
  | obj :: objs, rt, calls =>
    if obj.idx < indexMin ∨ obj.idx > indexMax then
      bindObjs al access objs rt calls
    else
      match bindSubs al access obj.subs rt calls with
      | (.ok, rt, calls) => bindObjs al access objs rt calls
      | failed => failed

/-- `lely_rtt_local_od_bind` -/
def bind (al : Allocator ptr) (rt : Runtime σ φ ptr) : RtErr × Runtime σ φ ptr :=
  match rt.masterDev with
  | none => (.inval, rt)
  | some dev =>
    if rt.localOdHooks ≠ [] then
      (.inval, rt)
    else
      let (err, rt, _) := bindObjs al dev.access dev.objs (reset rt) 0
      (err, rt)

/-- What an indication leaves in the request. -/
structure Segment where
  nbyte : Nat
  last : Bool
  deriving DecidableEq, Repr

/-- The write is published once the last segment with data was accepted. -/
def publishes (ac : BitVec 32) (req : Option Segment) : Bool :=
  ac = 0 ∧ req.any fun req => req.nbyte ≠ 0 ∧ req.last

/-- The hook at an address. -/
def Runtime.hookAt (rt : Runtime σ φ ptr) (p : ptr) : Option (Hook σ φ ptr) :=
  (rt.localOdHooks.find? (·.1 = p)).map (·.2)

/--
`lely_rtt_local_od_dn_ind`: the abort code, and if the write is published. `run` is what the other
indications do with a request.
-/
def dnInd (rt : Runtime σ φ ptr) (run : DnInd φ → σ → Option ptr → BitVec 32 × Option Segment)
    (sub : σ) (data : Option ptr) : BitVec 32 × Bool :=
  match data.bind rt.hookAt with
  | none => (acError, false)
  | some hook =>
    match hook.previous with
    | none => (acError, false)
    | some previous =>
      let (ac, req) := run previous sub hook.previousData
      (ac, publishes ac req)

/-- The sub-objects that get a hook. -/
def Dev.writable (dev : Dev σ) : List σ :=
  ((dev.objs.filter fun obj => indexMin ≤ obj.idx ∧ obj.idx ≤ indexMax).flatMap (·.subs)).filter
    fun sub => dev.access sub &&& accessWrite ≠ 0

section

omit [DecidableEq σ] in
theorem Dev.writable_nodup (dev : Dev σ) : dev.writable.Nodup := by
  apply List.Nodup.filter
  refine List.Nodup.sublist ?_ dev.nodup
  exact List.Sublist.flatMap List.filter_sublist _

end

section

variable {al : Allocator ptr} {access : σ → BitVec 32} {rt rt₀ rt' : Runtime σ φ ptr} {subs : List σ}
  {calls : Nat} {err : RtErr}

/-- The sub-objects `done` have hooks over the indications of `rt₀`, and nothing else has changed. -/
structure Hooked (al : Allocator ptr) (rt₀ rt : Runtime σ φ ptr) (done : List σ) (calls : Nat) : Prop where
  subs : rt.localOdHooks.map (·.2.sub) = done.reverse
  nodup : done.Nodup
  -- the addresses come from the calls so far
  drawn : ∀ p hook, (p, hook) ∈ rt.localOdHooks → ∃ i < calls, al.calloc i = some p
  distinct : (rt.localOdHooks.map (·.1)).Nodup
  hook : ∀ p hook, (p, hook) ∈ rt.localOdHooks →
    rt.ind hook.sub = ⟨some .localOd, some p⟩ ∧ hook.previous.isSome
      ∧ rt₀.ind hook.sub = ⟨hook.previous, hook.previousData⟩
  others : ∀ sub ∉ done, rt.ind sub = rt₀.ind sub

omit [DecidableEq σ] [DecidableEq φ] [DecidableEq ptr] in
theorem Hooked.start (hnone : rt.localOdHooks = []) : Hooked al rt rt [] calls := by
  constructor <;> simp [hnone]

omit [DecidableEq φ] [DecidableEq ptr] in
theorem Hooked.install {done : List σ} {sub : σ} {p : ptr} (h : Hooked al rt₀ rt done calls)
    (hsub : sub ∉ done) (hp : al.calloc calls = some p) (hprevious : (rt.ind sub).dnInd ≠ none)
    : Hooked al rt₀ (rt.install sub p) (done ++ [sub]) (calls + 1) := by
  have hother {p' : ptr} {hook : Hook σ φ ptr} (hmem : (p', hook) ∈ rt.localOdHooks) : hook.sub ≠ sub := by
    rintro rfl
    apply hsub
    rw [← List.mem_reverse, ← h.subs]
    exact List.mem_map_of_mem hmem
  constructor
  case subs => simp [Runtime.install, h.subs]
  case nodup => simpa [List.nodup_append] using ⟨h.nodup, fun _ ha heq => hsub (heq ▸ ha)⟩
  case drawn =>
    intro p' hook hmem
    obtain heq | hmem := List.mem_cons.mp hmem
    . cases heq
      exact ⟨calls, Nat.lt_succ_self _, hp⟩
    . obtain ⟨i, hi, hcalloc⟩ := h.drawn p' hook hmem
      exact ⟨i, Nat.lt_succ_of_lt hi, hcalloc⟩
  case distinct =>
    rw [Runtime.install, List.map_cons, List.nodup_cons]
    refine ⟨fun hdrawn => ?_, h.distinct⟩
    obtain ⟨⟨p', hook⟩, hmem, heq⟩ := List.mem_map.mp hdrawn
    obtain ⟨i, hi, hcalloc⟩ := h.drawn p' hook hmem
    obtain rfl : p' = p := heq
    exact Nat.ne_of_lt hi (al.distinct i calls p' hcalloc hp)
  case hook =>
    intro p' hook hmem
    obtain heq | hmem := List.mem_cons.mp hmem
    . cases heq
      refine ⟨by simp [Runtime.install, setDnInd], Option.isSome_iff_ne_none.mpr hprevious, ?_⟩
      rw [← h.others sub hsub]
    . simpa [Runtime.install, setDnInd, hother hmem] using h.hook p' hook hmem
  case others =>
    intro sub' hnot
    simp only [List.mem_append, List.mem_singleton, not_or] at hnot
    simpa [Runtime.install, setDnInd, hnot.2] using h.others sub' hnot.1

omit [DecidableEq σ] [DecidableEq φ] [DecidableEq ptr] in
theorem Hooked.subs_nodup {done : List σ} (h : Hooked al rt₀ rt done calls)
    : (rt.localOdHooks.map (·.2.sub)).Nodup := by
  rw [h.subs]
  exact List.nodup_reverse.mpr h.nodup

/-- The removal restores what still has its hook and leaves the rest alone, whatever `ind` is by now. -/
theorem unhook_eq (hooks : List (ptr × Hook σ φ ptr)) (hnodup : (hooks.map (·.2.sub)).Nodup)
    (hsome : ∀ p hook, (p, hook) ∈ hooks → hook.previous.isSome) (ind : σ → Ind φ ptr)
    : (∀ sub ∉ hooks.map (·.2.sub), unhook hooks ind sub = ind sub)
      ∧ ∀ p hook, (p, hook) ∈ hooks → unhook hooks ind hook.sub
        = if ind hook.sub = ⟨some .localOd, some p⟩ then ⟨hook.previous, hook.previousData⟩
          else ind hook.sub := by
  induction hooks generalizing ind with
  | nil => simp [unhook]
  | cons entry hooks ih =>
    obtain ⟨p, hook⟩ := entry
    rw [List.map_cons, List.nodup_cons] at hnodup
    have ih := ih hnodup.2 fun p' hook' hmem => hsome p' hook' (List.mem_cons_of_mem _ hmem)
    obtain ⟨previous, hprevious⟩ := Option.isSome_iff_exists.mp (hsome p hook List.mem_cons_self)
    have hother {p' : ptr} {hook' : Hook σ φ ptr} (hmem : (p', hook') ∈ hooks) : hook'.sub ≠ hook.sub :=
      fun heq => hnodup.1 (heq ▸ List.mem_map_of_mem hmem)
    rw [unhook]
    split
    next hind =>
      obtain ⟨hkept, hrestored⟩ := ih (setDnInd ind hook.sub hook.previous hook.previousData)
      constructor
      . intro sub hsub
        simp only [List.map_cons, List.mem_cons, not_or] at hsub
        rw [hkept sub hsub.2]
        simp [setDnInd, hsub.1]
      . intro p' hook' hmem
        obtain heq | hmem := List.mem_cons.mp hmem
        . cases heq
          rw [if_pos hind, hkept _ hnodup.1]
          simp [setDnInd, hprevious]
        . rw [hrestored p' hook' hmem]
          simp [setDnInd, hother hmem]
    next hind =>
      obtain ⟨hkept, hrestored⟩ := ih ind
      constructor
      . intro sub hsub
        simp only [List.map_cons, List.mem_cons, not_or] at hsub
        exact hkept sub hsub.2
      . intro p' hook' hmem
        obtain heq | hmem := List.mem_cons.mp hmem
        . cases heq
          rw [if_neg hind, hkept _ hnodup.1]
        . exact hrestored p' hook' hmem

/-- After the removal nothing has changed. -/
theorem Hooked.unbind {done : List σ} (h : Hooked al rt₀ rt done calls)
    : (unbind rt).ind = rt₀.ind ∧ (Hooks.unbind rt).localOdHooks = [] := by
  obtain ⟨hkept, hrestored⟩ := unhook_eq rt.localOdHooks h.subs_nodup
    (fun p hook hmem => (h.hook p hook hmem).2.1) rt.ind
  refine ⟨funext fun sub => ?_, rfl⟩
  change unhook rt.localOdHooks rt.ind sub = _
  by_cases hsub : sub ∈ rt.localOdHooks.map (·.2.sub)
  . obtain ⟨⟨p, hook⟩, hmem, rfl⟩ := List.mem_map.mp hsub
    obtain ⟨hind, _, hprevious⟩ := h.hook p hook hmem
    rw [hrestored p hook hmem, if_pos hind, hprevious]
  . rw [hkept sub hsub]
    apply h.others
    rwa [h.subs, List.mem_reverse] at hsub

/-- What a part of the installation leaves: hooks over `done`, or nothing. -/
inductive Bound (al : Allocator ptr) (rt₀ : Runtime σ φ ptr) (done : List σ)
    : RtErr × Runtime σ φ ptr × Nat → Prop
  | ok {rt : Runtime σ φ ptr} {calls : Nat} : Hooked al rt₀ rt done calls → Bound al rt₀ done (.ok, rt, calls)
  | failed {err : RtErr} {rt : Runtime σ φ ptr} {calls : Nat} : err = .nomem ∨ err = .error →
      rt.ind = rt₀.ind → rt.localOdHooks = [] → Bound al rt₀ done (err, rt, calls)

variable (access) in
theorem bindSubs_bound {done : List σ} (h : Hooked al rt₀ rt done calls) (hnodup : (done ++ subs).Nodup)
    : Bound al rt₀ (done ++ subs.filter fun sub => access sub &&& accessWrite ≠ 0)
      (bindSubs al access subs rt calls) := by
  induction subs generalizing rt done calls with
  | nil => simpa [bindSubs] using Bound.ok h
  | cons sub subs ih =>
    have hsub : sub ∉ done := by
      intro hmem
      exact (List.nodup_append.mp hnodup).2.2 sub hmem sub List.mem_cons_self rfl
    rw [bindSubs]
    split
    next hread =>
      rw [List.filter_cons_of_neg (by simpa using hread)]
      apply ih h
      exact hnodup.sublist (List.Sublist.append_left (List.sublist_cons_self _ _) _)
    next hwrite =>
      rw [List.filter_cons_of_pos (by simpa using hwrite)]
      obtain ⟨hind, hhooks⟩ := h.unbind
      split
      next => exact .failed (.inl rfl) hind hhooks
      next p hp =>
        split
        next => exact .failed (.inr rfl) hind hhooks
        next hprevious =>
          have hnodup' : (done ++ [sub] ++ subs).Nodup := by simpa using hnodup
          simpa using ih (h.install hsub hp hprevious) hnodup'

variable (access) in
theorem bindObjs_bound {objs : List (Obj σ)} {done : List σ} (h : Hooked al rt₀ rt done calls)
    (hnodup : (done ++ objs.flatMap (·.subs)).Nodup)
    : Bound al rt₀
      (done ++ ((objs.filter fun obj => indexMin ≤ obj.idx ∧ obj.idx ≤ indexMax).flatMap (·.subs)).filter
        fun sub => access sub &&& accessWrite ≠ 0)
      (bindObjs al access objs rt calls) := by
  induction objs generalizing rt done calls with
  | nil => simpa [bindObjs] using Bound.ok h
  | cons obj objs ih =>
    rw [List.flatMap_cons] at hnodup
    rw [bindObjs]
    split
    next hout =>
      rw [List.filter_cons_of_neg (by simp; bv_omega)]
      apply ih h
      exact hnodup.sublist (List.Sublist.append_left (List.sublist_append_right _ _) _)
    next hin =>
      rw [List.filter_cons_of_pos (by simp; bv_omega), List.flatMap_cons, List.filter_append]
      have hsubs : (done ++ obj.subs).Nodup :=
        hnodup.sublist (List.Sublist.append_left (List.sublist_append_left _ _) _)
      have hbound := bindSubs_bound access h hsubs
      generalize bindSubs al access obj.subs rt calls = result at hbound
      cases hbound with
      | ok hhooked =>
        rw [← List.append_assoc]
        apply ih hhooked
        refine hnodup.sublist ?_
        rw [List.append_assoc]
        exact List.Sublist.append_left (List.Sublist.append_right List.filter_sublist _) _
      | failed herr hind hhooks =>
        obtain rfl | rfl := herr
        . exact .failed (.inl rfl) hind hhooks
        . exact .failed (.inr rfl) hind hhooks

omit [DecidableEq σ] [DecidableEq φ] in
/-- The hook of a sub-object that has one is found at the data of its indication. -/
theorem Hooked.hookAt {done : List σ} {sub : σ} (h : Hooked al rt₀ rt done calls) (hsub : sub ∈ done)
    : ∃ p previous, rt.ind sub = ⟨some .localOd, some p⟩ ∧ (rt₀.ind sub).dnInd = some previous
      ∧ rt.hookAt p = some ⟨sub, some previous, (rt₀.ind sub).dnData⟩ := by
  rw [← List.mem_reverse, ← h.subs] at hsub
  obtain ⟨⟨p, hook⟩, hmem, rfl⟩ := List.mem_map.mp hsub
  obtain ⟨hind, hprevious, hold⟩ := h.hook p hook hmem
  obtain ⟨previous, hprevious⟩ := Option.isSome_iff_exists.mp hprevious
  refine ⟨p, previous, hind, by rw [hold, hprevious], ?_⟩
  have hfind : rt.localOdHooks.find? (·.1 = p) = some (p, hook) := by
    have hdistinct := h.distinct
    generalize rt.localOdHooks = hooks at hmem hdistinct
    induction hooks with
    | nil => simp at hmem
    | cons entry hooks ih =>
      rw [List.map_cons, List.nodup_cons] at hdistinct
      obtain rfl | hmem := List.mem_cons.mp hmem
      . simp
      . have hne : entry.1 ≠ p := fun heq => hdistinct.1 (heq ▸ List.mem_map_of_mem hmem)
        rw [List.find?_cons_of_neg (by simpa using hne)]
        exact ih hmem hdistinct.2
  obtain ⟨sub, previous', previousData⟩ := hook
  simp only at hprevious hold
  simp [Runtime.hookAt, hfind, hold, hprevious]

end

variable {al : Allocator ptr} {rt : Runtime σ φ ptr}

variable (al) in
/-- What `lely_rtt_local_od_bind` leaves, when it begins without hooks. -/
theorem bind_bound {dev : Dev σ} (hdev : rt.masterDev = some dev)
    : Hooks.bind al rt = (.inval, rt)
      ∨ ∃ err rt' calls, Hooks.bind al rt = (err, rt')
        ∧ Bound al (reset rt) dev.writable (err, rt', calls) := by
  unfold Hooks.bind
  simp only [hdev]
  split
  next => exact .inl rfl
  next hnone =>
    right
    have hhooked : Hooked al (reset rt) (reset rt) [] 0 := .start (by simpa [reset] using hnone)
    have hbound := bindObjs_bound dev.access hhooked (by simpa using dev.nodup)
    rw [List.nil_append] at hbound
    generalize bindObjs al dev.access dev.objs (reset rt) 0 = result at hbound ⊢
    obtain ⟨err, rt', calls⟩ := result
    exact ⟨err, rt', calls, rfl, hbound⟩

/--
The installation of the hooks is atomic: a failure leaves every indication as it was and no hook, a
success hooks exactly the writable sub-objects of the range, each once, and the removal restores what
was not replaced in between.
-/
theorem local_od_bind_atomic {dev : Dev σ} (hdev : rt.masterDev = some dev)
    : ((Hooks.bind al rt).1 = .nomem ∨ (Hooks.bind al rt).1 = .error →
        (Hooks.bind al rt).2.ind = rt.ind ∧ (Hooks.bind al rt).2.localOdHooks = [])
      ∧ ((Hooks.bind al rt).1 = .ok →
        (Hooks.bind al rt).2.localOdHooks.map (·.2.sub) = dev.writable.reverse
        ∧ dev.writable.Nodup
        ∧ (∀ sub ∈ dev.writable, ∃ p previous,
            (Hooks.bind al rt).2.ind sub = ⟨some .localOd, some p⟩
            ∧ (rt.ind sub).dnInd = some previous
            ∧ (Hooks.bind al rt).2.hookAt p = some ⟨sub, some previous, (rt.ind sub).dnData⟩
            ∧ ∀ run, dnInd (Hooks.bind al rt).2 run sub (some p)
              = ((run previous sub (rt.ind sub).dnData).1,
                publishes (run previous sub (rt.ind sub).dnData).1
                  (run previous sub (rt.ind sub).dnData).2))
        ∧ (∀ sub ∉ dev.writable, (Hooks.bind al rt).2.ind sub = rt.ind sub)
        ∧ ∀ ind : σ → Ind φ ptr,
            (unbind { (Hooks.bind al rt).2 with ind := ind }).localOdHooks = []
            ∧ ∀ sub, (unbind { (Hooks.bind al rt).2 with ind := ind }).ind sub
              = if sub ∈ dev.writable ∧ ind sub = (Hooks.bind al rt).2.ind sub then rt.ind sub
                else ind sub) := by
  obtain hinval | ⟨err, rt', calls, hbind, hbound⟩ := bind_bound al hdev
  . rw [hinval]
    exact ⟨by simp, by simp⟩
  rw [hbind]
  cases hbound with
  | failed herr hind hhooks =>
    refine ⟨fun _ => ⟨hind, hhooks⟩, fun hok => ?_⟩
    obtain rfl | rfl := herr <;> cases hok
  | ok hhooked =>
    refine ⟨by simp, fun _ => ?_⟩
    have hnodup := hhooked.subs_nodup
    refine ⟨hhooked.subs, dev.writable_nodup, ?_, hhooked.others, fun ind => ⟨rfl, fun sub => ?_⟩⟩
    . intro sub hsub
      obtain ⟨p, previous, hind, hprevious, hhookAt⟩ := hhooked.hookAt hsub
      exact ⟨p, previous, hind, hprevious, hhookAt, fun run => by simp [dnInd, hhookAt, reset]⟩
    . obtain ⟨hkept, hrestored⟩ := unhook_eq rt'.localOdHooks hnodup
        (fun p hook hmem => (hhooked.hook p hook hmem).2.1) ind
      change unhook rt'.localOdHooks ind sub = _
      by_cases hsub : sub ∈ rt'.localOdHooks.map (·.2.sub)
      . have hwritable : sub ∈ dev.writable := by rwa [hhooked.subs, List.mem_reverse] at hsub
        obtain ⟨⟨p, hook⟩, hmem, rfl⟩ := List.mem_map.mp hsub
        obtain ⟨hind, _, hold⟩ := hhooked.hook p hook hmem
        rw [hrestored p hook hmem, hind, ← hold]
        simp [hwritable, reset]
      . rw [hkept sub hsub, if_neg]
        rintro ⟨hwritable, _⟩
        rw [hhooked.subs, List.mem_reverse] at hsub
        exact hsub hwritable

/-- A device with a writable object of two sub-objects, of which the second has no indication. -/
def noIndication : Runtime (Fin 2) Unit Nat where
  masterDev := some
    { objs := [⟨0x2000#16, [0, 1]⟩]
      access := fun _ => accessWrite
      nodup := by decide }
  localOdHooks := []
  ind := fun sub => if sub = 0 then ⟨some .default, none⟩ else ⟨none, none⟩
  change := {}
  apiWriteActive := false

/-- Memory is never short. -/
def enough : Allocator Nat where
  calloc := some
  distinct := by simp

/-- The hook of the first sub-object is taken back when the second cannot be hooked. -/
theorem local_od_bind_atomic_no_indication
    : (Hooks.bind enough noIndication).2.ind = noIndication.ind
      ∧ (Hooks.bind enough noIndication).2.localOdHooks = [] :=
  (local_od_bind_atomic rfl).1 (.inr (by decide))

end LelyRtt.LocalOd.Hooks
