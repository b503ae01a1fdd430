import Mathlib.Data.List.Basic

/-!
This module contains queues of messages that may lose and duplicate what is in them, and the
exchange of numbered requests and answers over two such queues: request `k + 1` is only sent when
answer `k` has arrived, and answer `k` only when request `k` has.
-/

namespace Conc

variable {α : Type}

/-- One message of a queue is lost, or arrives twice. -/
inductive Faulty : List α → List α → Prop
  | lose (pre : List α) (x : α) (post : List α) : Faulty (pre ++ x :: post) (pre ++ post)
  | double (pre : List α) (x : α) (post : List α) : Faulty (pre ++ x :: post) (pre ++ x :: x :: post)

/--
A queue of messages with numbers `lo` and up, in the order of their numbers, with `other` messages
anywhere between them.
-/
inductive Carries (frame : Nat → α → Prop) (other : α → Prop) : Nat → List α → Prop
  | nil (lo : Nat) : Carries frame other lo []
  | frame {lo k : Nat} {x : α} {q : List α} (hlo : lo ≤ k) (hx : frame k x)
    (hq : Carries frame other k q) : Carries frame other lo (x :: q)
  | other {lo : Nat} {x : α} {q : List α} (hx : other x)
    (hq : Carries frame other lo q) : Carries frame other lo (x :: q)

namespace Carries

variable {frame frame' : Nat → α → Prop} {other : α → Prop} {lo lo' k : Nat} {x : α} {q q' : List α}

theorem mono (h : Carries frame other lo q) (hlo : lo' ≤ lo)
    (hframe : ∀ k x, lo ≤ k → frame k x → frame' k x) : Carries frame' other lo' q := by
  induction h generalizing lo' with
  | nil => exact .nil _
  | frame hk hx _ ih =>
    exact .frame (by omega) (hframe _ _ hk hx) (ih (Nat.le_refl _) fun k x hkx => hframe k x (by omega))
  | other hx _ ih => exact .other hx (ih hlo hframe)

theorem lower (h : Carries frame other lo q) (hlo : lo' ≤ lo) : Carries frame other lo' q :=
  h.mono hlo fun _ _ _ hx => hx

/-- A message that is put behind all others has a number that none of them exceeds. -/
theorem push (h : Carries frame other lo q) (hlo : lo ≤ k) (hle : ∀ j y, frame j y → j ≤ k)
    (hx : frame k x) : Carries frame other lo (q ++ [x]) := by
  induction h with
  | nil => exact .frame hlo hx (.nil _)
  | frame hj hy _ ih => exact .frame hj hy (ih (hle _ _ hy))
  | other hy _ ih => exact .other hy (ih hlo)

theorem push_other (h : Carries frame other lo q) (hx : other x)
    : Carries frame other lo (q ++ [x]) := by
  induction h with
  | nil => exact .other hx (.nil _)
  | frame hj hy _ ih => exact .frame hj hy ih
  | other hy _ ih => exact .other hy ih

theorem push_others (h : Carries frame other lo q) (hall : ∀ x ∈ q', other x)
    : Carries frame other lo (q ++ q') := by
  induction q' generalizing q with
  | nil => simpa using h
  | cons x q' ih =>
    rw [List.append_cons]
    exact ih (h.push_other (hall x List.mem_cons_self)) fun y hy => hall y (List.mem_cons_of_mem _ hy)

theorem pop (h : Carries frame other lo (x :: q))
    : (other x ∧ Carries frame other lo q) ∨ ∃ k, lo ≤ k ∧ frame k x ∧ Carries frame other k q := by
  cases h with
  | frame hlo hx hq => exact .inr ⟨_, hlo, hx, hq⟩
  | other hx hq => exact .inl ⟨hx, hq⟩

theorem faulty (h : Carries frame other lo q) (hf : Faulty q q') : Carries frame other lo q' := by
  cases hf with
  | lose pre x post =>
    induction pre generalizing lo with
    | nil =>
      obtain ⟨_, hq⟩ | ⟨k, hk, _, hq⟩ := h.pop
      . exact hq
      . exact hq.lower hk
    | cons y pre ih =>
      obtain ⟨hy, hq⟩ | ⟨k, hk, hy, hq⟩ := Carries.pop h
      . exact .other hy (ih hq)
      . exact .frame hk hy (ih hq)
  | double pre x post =>
    induction pre generalizing lo with
    | nil =>
      obtain ⟨hx, hq⟩ | ⟨k, hk, hx, hq⟩ := h.pop
      . exact .other hx (.other hx hq)
      . exact .frame hk hx (.frame (Nat.le_refl k) hx hq)
    | cons y pre ih =>
      obtain ⟨hy, hq⟩ | ⟨k, hk, hy, hq⟩ := Carries.pop h
      . exact .other hy (ih hq)
      . exact .frame hk hy (ih hq)

end Carries

/-! ### Requests and answers in lock-step -/

/--
The two queues when the last request is number `sent` and the last one that the server has accepted
is number `taken`: no request before `taken` and no answer before `sent - 1` is left.
-/
structure Lockstep (req ans : Nat → α → Prop) (other : α → Prop) (sent taken : Nat)
    (toServer toClient : List α) : Prop where
  taken_le : taken ≤ sent
  sent_le : sent ≤ taken + 1
  toServer : Carries (fun k x => k ≤ sent ∧ req k x) other taken toServer
  toClient : Carries (fun k x => k ≤ taken ∧ ans k x) other (sent - 1) toClient

namespace Lockstep

variable {req ans ans' : Nat → α → Prop} {other : α → Prop} {sent taken k : Nat} {x : α}
  {toServer toClient q : List α}

theorem start (hx : req 0 x) : Lockstep req ans other 0 0 [x] [] where
  taken_le := Nat.le_refl 0
  sent_le := Nat.zero_le 1
  toServer := .frame (Nat.le_refl 0) ⟨Nat.le_refl 0, hx⟩ (.nil 0)
  toClient := .nil _

theorem mono_ans (h : Lockstep req ans other sent taken toServer toClient)
    (hans : ∀ k x, k ≤ taken → ans k x → ans' k x)
    : Lockstep req ans' other sent taken toServer toClient where
  taken_le := h.taken_le
  sent_le := h.sent_le
  toServer := h.toServer
  toClient := h.toClient.mono (Nat.le_refl _) fun k x _ hx => ⟨hx.1, hans k x hx.1 hx.2⟩

theorem faulty_toServer (h : Lockstep req ans other sent taken toServer toClient)
    (hf : Faulty toServer q) : Lockstep req ans other sent taken q toClient :=
  { h with toServer := h.toServer.faulty hf }

theorem faulty_toClient (h : Lockstep req ans other sent taken toServer toClient)
    (hf : Faulty toClient q) : Lockstep req ans other sent taken toServer q :=
  { h with toClient := h.toClient.faulty hf }

theorem others_toServer (h : Lockstep req ans other sent taken toServer toClient)
    (hq : ∀ x ∈ q, other x) : Lockstep req ans other sent taken (toServer ++ q) toClient :=
  { h with toServer := h.toServer.push_others hq }

theorem others_toClient (h : Lockstep req ans other sent taken toServer toClient)
    (hq : ∀ x ∈ q, other x) : Lockstep req ans other sent taken toServer (toClient ++ q) :=
  { h with toClient := h.toClient.push_others hq }

/-- The server takes the first message: it is something else, or the last request or the one before. -/
theorem pop_toServer (h : Lockstep req ans other sent taken (x :: toServer) toClient)
    : Lockstep req ans other sent taken toServer toClient
      ∧ (other x ∨ ∃ k, taken ≤ k ∧ k ≤ sent ∧ req k x
        ∧ (k = sent → Lockstep req ans other sent sent toServer toClient)) := by
  obtain ⟨hx, hq⟩ | ⟨k, hk, ⟨hle, hx⟩, hq⟩ := h.toServer.pop
  . exact ⟨{ h with toServer := hq }, .inl hx⟩
  . refine ⟨{ h with toServer := hq.lower hk }, .inr ⟨k, hk, hle, hx, ?_⟩⟩
    rintro rfl
    exact {
      taken_le := Nat.le_refl k
      sent_le := Nat.le_succ k
      toServer := hq
      toClient := h.toClient.mono (Nat.le_refl _) fun j y _ hy => ⟨Nat.le_trans hy.1 hk, hy.2⟩ }

/-- The client takes the first message: it is something else, or an answer. -/
theorem pop_toClient (h : Lockstep req ans other sent taken toServer (x :: toClient))
    : Lockstep req ans other sent taken toServer toClient
      ∧ (other x ∨ ∃ k, sent - 1 ≤ k ∧ k ≤ taken ∧ ans k x
        ∧ (k = sent → ∀ y, req (sent + 1) y →
          Lockstep req ans other (sent + 1) taken (toServer ++ [y]) toClient)) := by
  obtain ⟨hx, hq⟩ | ⟨k, hk, ⟨hle, hx⟩, hq⟩ := h.toClient.pop
  . exact ⟨{ h with toClient := hq }, .inl hx⟩
  . refine ⟨{ h with toClient := hq.lower hk }, .inr ⟨k, hk, hle, hx, ?_⟩⟩
    rintro rfl y hy
    have htaken : taken = k := Nat.le_antisymm h.taken_le hle
    subst htaken
    exact {
      taken_le := Nat.le_succ _
      sent_le := Nat.le_refl _
      toServer := Carries.push
        (h.toServer.mono (Nat.le_refl _) fun j z _ hz => ⟨Nat.le_succ_of_le hz.1, hz.2⟩)
        (Nat.le_succ _) (fun _ _ hz => hz.1) ⟨Nat.le_refl _, hy⟩
      toClient := hq }

/-- The server answers the request it has accepted last. -/
theorem answer (h : Lockstep req ans other sent taken toServer toClient) (hx : ans taken x)
    : Lockstep req ans other sent taken toServer (toClient ++ [x]) where
  taken_le := h.taken_le
  sent_le := h.sent_le
  toServer := h.toServer
  toClient := h.toClient.push (by have := h.sent_le; omega) (fun _ _ hy => hy.1)
    ⟨Nat.le_refl _, hx⟩

end Lockstep

end Conc
