import LelyRtt.Sdo.Request
import Mathlib.Data.List.Induction

/-!
This module contains a monitor that runs over the history of a request and follows how far its
completion has come.
-/

namespace LelyRtt

/-- How far the completion of a request has come, and which thread performs it. -/
inductive Completion where
  | unset
  | set (who : Who)
  | sent (who : Who)
  | closed (who : Who)
  | broken
  deriving DecidableEq, Repr

namespace Completion

/--
One event of the history. Before `DONE` results may be written and completion references returned;
after it only the thread that set it may send the event and then return its reference.
-/
def next : Completion → ReqEvent → Completion
  | c, .postRet _ => c
  | c, .cancelRet _ _ => c
  | c, .destroyRet _ => c
  | c, .waitRet _ => c
  | .unset, .result _ => .unset
  | .unset, .clearRefs _ => .unset
  | .unset, .setDone who => .set who
  | .set who, .sendDone who' => if who = who' then .sent who else .broken
  | .sent who, .clearRefs who' => if who = who' then .closed who else .broken
  | _, _ => .broken

@[simp]
theorem next_postRet (c : Completion) (err : RtErr) : c.next (.postRet err) = c := by
  cases c <;> rfl

@[simp]
theorem next_cancelRet (c : Completion) (claimed : Option ReqState) (err : RtErr)
    : c.next (.cancelRet claimed err) = c := by
  cases c <;> rfl

@[simp]
theorem next_destroyRet (c : Completion) (err : RtErr) : c.next (.destroyRet err) = c := by
  cases c <;> rfl

@[simp]
theorem next_waitRet (c : Completion) (err : RtErr) : c.next (.waitRet err) = c := by
  cases c <;> rfl

end Completion

/-- How far the completion has come after a history. -/
def completion (hist : List ReqEvent) : Completion :=
  hist.foldl Completion.next .unset

@[simp]
theorem completion_append (hist : List ReqEvent) (e : ReqEvent)
    : completion (hist ++ [e]) = (completion hist).next e := by
  simp [completion]

/-- The events of a history that the monitor does not skip. -/
def ReqEvent.completing : ReqEvent → Bool
  | .result _ | .setDone _ | .sendDone _ | .clearRefs _ => true
  | _ => false

/-- The steps of a completion by one thread, in their order. -/
def Completion.steps (who : Who) : List ReqEvent :=
  [.setDone who, .sendDone who, .clearRefs who]

/-- The completion steps that a monitor state has seen. -/
def Completion.seen : Completion → List ReqEvent
  | .unset | .broken => []
  | .set who => [.setDone who]
  | .sent who => [.setDone who, .sendDone who]
  | .closed who => Completion.steps who

/--
A history that the monitor accepts is a part without `DONE` and without an event, followed by the
completion steps of one thread.
-/
theorem filter_completing_of_completion (hist : List ReqEvent) (h : completion hist ≠ .broken)
    : ∃ before, hist.filter (·.completing) = before ++ (completion hist).seen
        ∧ ∀ e ∈ before, ∃ who, e = .result who ∨ e = .clearRefs who := by
  induction hist using List.reverseRecOn with
  | nil => exact ⟨[], by simp [completion, Completion.seen]⟩
  | append_singleton hist e ih =>
    rw [completion_append] at *
    have hok : completion hist ≠ .broken := by
      intro heq
      rw [heq] at h
      cases e <;> simp [Completion.next] at h
    obtain ⟨before, heq, hbefore⟩ := ih hok
    rw [List.filter_append, heq]
    cases hc : completion hist with
    | unset =>
      cases e with
      | result who =>
        refine ⟨before ++ [.result who], ?_, ?_⟩
        . simp [ReqEvent.completing, Completion.next, Completion.seen]
        . intro e he
          simp only [List.mem_append, List.mem_singleton] at he
          cases he with
          | inl he => exact hbefore e he
          | inr he => exact ⟨who, .inl he⟩
      | clearRefs who =>
        refine ⟨before ++ [.clearRefs who], ?_, ?_⟩
        . simp [ReqEvent.completing, Completion.next, Completion.seen]
        . intro e he
          simp only [List.mem_append, List.mem_singleton] at he
          cases he with
          | inl he => exact hbefore e he
          | inr he => exact ⟨who, .inr he⟩
      | sendDone who => simp [hc, Completion.next] at h
      | _ => exact ⟨before, by simp [ReqEvent.completing, Completion.next, Completion.seen], hbefore⟩
    | broken => exact absurd hc hok
    | _ =>
      cases e <;> simp_all [ReqEvent.completing, Completion.next, Completion.seen, Completion.steps]

/--
The completing events of a history are results and returned references, followed by the first steps
of a completion by one thread.
-/
def CompletesOnce (hist : List ReqEvent) : Prop :=
  ∃ who before done, hist.filter (·.completing) = before ++ done ∧ done <+: Completion.steps who
    ∧ ∀ e ∈ before, ∃ who, e = .result who ∨ e = .clearRefs who

theorem Completion.seen_extends (c : Completion) : ∃ who, c.seen <+: Completion.steps who := by
  cases c with
  | unset | broken => exact ⟨.owner, by simp [seen]⟩
  | set who | sent who | closed who => exact ⟨who, by simp [seen, steps]⟩

theorem completesOnce_of_completion {hist : List ReqEvent} (h : completion hist ≠ .broken)
    : CompletesOnce hist := by
  obtain ⟨before, heq, hbefore⟩ := filter_completing_of_completion hist h
  obtain ⟨who, hextends⟩ := (completion hist).seen_extends
  exact ⟨who, before, _, heq, hextends, hbefore⟩

/-- The steps of a completion that a history holds are those that the monitor has seen. -/
theorem mem_of_completion {hist : List ReqEvent} (h : completion hist ≠ .broken) {e : ReqEvent}
    (he : e.completing) (hresult : ∀ who, e ≠ .result who ∧ e ≠ .clearRefs who)
    : e ∈ hist ↔ e ∈ (completion hist).seen := by
  obtain ⟨before, heq, hbefore⟩ := filter_completing_of_completion hist h
  have hmem : e ∈ hist ↔ e ∈ hist.filter (·.completing) := by simp [he]
  rw [hmem, heq, List.mem_append, or_iff_right]
  intro hin
  obtain ⟨who, heq | heq⟩ := hbefore e hin
  . exact (hresult who).1 heq
  . exact (hresult who).2 heq

end LelyRtt
