import LelyRtt.Basic
import Mathlib.Data.List.Nodup
import Mathlib.Logic.Function.Basic
import Mathlib.Logic.Relation

/-!
This module contains the owner's side of the manual NMT configuration: dispatch, the callbacks that
Lely makes, the reaper and the barriers, and the proof that a staged result of the application DCF
resumes the request that it was staged for, or nothing.

A call into Lely may make callbacks before it returns. The owner is therefore a stack of frames, and
Lely may call back whenever the innermost frame waits for it.
-/

namespace LelyRtt.Cfg

/-- `enum lely_rtt_nmt_cfg_completion_status` -/
inductive Status where
  | ok
  | abort
  | canceled
  | localError
  deriving DecidableEq, Repr

/-- `enum lely_rtt_nmt_cfg_stage` -/
inductive Stage where
  | queued
  | ownerPrecheck
  | lelySequence
  | applicationDcf
  | complete
  deriving DecidableEq, Repr

/-- `struct lely_rtt_nmt_cfg_diagnostic`. The source flags are three fields. -/
structure Diagnostic where
  stage : Stage := .queued
  object1f22 : Bool := false
  applicationDcf : Bool := false
  externalCfgInd : Bool := false
  restoreRequested : Bool := false
  applicationDcfEntries : Nat := 0
  lastIndex : Nat := 0
  lastSubindex : Nat := 0
  deriving DecidableEq, Repr

/-- `struct lely_rtt_master_cfg_request` without its node, which nobody writes after the post. -/
structure Request where
  status : Status := .localError
  localError : RtErr := .busy
  abortCode : BitVec 32 := 0
  diagnostic : Diagnostic := {}
  cancelRequested : Bool := false
  deriving DecidableEq, Repr

/-- `CO_SDO_AC_ERROR` -/
def acError : BitVec 32 := 0x08000000#32

/-- Where the owner is. -/
inductive Frame (ρ : Type) where
  -- in `co_nmt_cfg_req` for a request
  | req (request : ρ)
  -- in `co_nmt_cfg_res`
  | res
  -- in `co_csdo_dn_dcf_req`
  | dcf
  -- in `co_nmt_destroy`
  | destroy
  -- in some other call into Lely
  | call
  -- the loop of `lely_rtt_master_cfg_reap`, at a node
  | reap (node : Nat)
  -- the loop of `lely_rtt_master_cfg_retire_all`, at a node; `final` behind `co_nmt_destroy`
  | retire (node : Nat) (final : Bool)
  deriving DecidableEq

/-- A result that was staged for the request that was active then. -/
structure Staged (ρ : Type) where
  node : Nat
  request : ρ
  ac : BitVec 32
  deriving DecidableEq

/--
The owner's configuration state and what Lely holds of it. `dispatched`, `completed`, `staged`, `ticket`
and `passed` are history: the requests taken from the queue, those that were completed, the results that
were staged, the number of the result that a node has staged, and the numbers and abort codes of those
that the reaper passed on.
-/
structure State (ρ : Type) where
  heap : ρ → Request
  cfgActive : Nat → Option ρ
  cfgResumePending : Nat → Bool
  cfgResumeAbortCode : Nat → BitVec 32
  cfgTearingDown : Bool
  /-- The entries of the registered application DCF of a node. -/
  cfgSources : Nat → Option Nat
  masterNmt : Bool
  canNet : Bool
  stack : List (Frame ρ)
  /-- The confirmations that Lely holds. -/
  cfgCon : Nat → Option ρ
  /-- Lely downloads the application DCF of the node. -/
  download : Nat → Bool
  dispatched : List ρ
  completed : List ρ
  staged : List (Staged ρ)
  ticket : Nat → Option Nat
  passed : List (Nat × BitVec 32)

/-- What the object dictionary and Lely say about a node when a request for it is dispatched. -/
structure NodeInfo where
  assigned : Bool
  restoreRequested : Bool
  object1f22 : Bool
  externalCfgInd : Bool
  booting : Bool
  deriving DecidableEq, Repr

/-- Where the owner's code calls for a step. -/
inductive Origin where
  -- the batch of `lely_rtt_master_command_dispatch`
  | dispatch
  -- the queue drain of `lely_rtt_master_command_fini`
  | drain
  -- the loop of `lely_rtt_owner_entry`
  | loop
  -- the cleanup
  | teardown
  -- a step inside one of these, or a callback
  | inner
  deriving DecidableEq, Repr

/-- The requests that a step of the owner accesses, and the one that it completes last. -/
structure Effect (ρ : Type) where
  origin : Origin := .inner
  accesses : List ρ := []
  completes : Option ρ := none

namespace State

variable {ρ : Type} [DecidableEq ρ]

def modify (s : State ρ) (r : ρ) (f : Request → Request) : State ρ :=
  { s with heap := Function.update s.heap r (f (s.heap r)) }

/-- Nothing is staged for the node any more. -/
def unstage (s : State ρ) (node : Nat) : State ρ :=
  {
    s with
      cfgResumePending := Function.update s.cfgResumePending node false
      cfgResumeAbortCode := Function.update s.cfgResumeAbortCode node 0
      ticket := Function.update s.ticket node none
  }

/-- Stage a result. -/
def stage (s : State ρ) (node : Nat) (r : ρ) (ac : BitVec 32) : State ρ :=
  {
    s with
      cfgResumePending := Function.update s.cfgResumePending node true
      cfgResumeAbortCode := Function.update s.cfgResumeAbortCode node ac
      staged := s.staged ++ [⟨node, r, ac⟩]
      ticket := Function.update s.ticket node (some s.staged.length)
  }

/-- `lely_rtt_master_cfg_complete` without a runtime -/
def finish (s : State ρ) (r : ρ) (status : Status) (err : RtErr) (ac : BitVec 32) : State ρ :=
  {
    s.modify r fun request =>
      { request with status := status, localError := err, abortCode := ac } with
      completed := s.completed ++ [r]
  }

/-- `lely_rtt_master_cfg_complete` for a request of the node -/
def complete (s : State ρ) (node : Nat) (r : ρ) (status : Status) (err : RtErr) (ac : BitVec 32)
    : State ρ :=
  if node ≤ numNodes ∧ s.cfgActive node = some r then
    ({ s with cfgActive := Function.update s.cfgActive node none }.unstage node).finish r status err ac
  else
    s.finish r status err ac

def cancel (s : State ρ) (r : ρ) : State ρ :=
  s.modify r fun request => { request with cancelRequested := true }

/-- `cancel_requested` for the active requests of the nodes -/
def cancelActive (s : State ρ) (nodes : List Nat) : State ρ :=
  nodes.foldl (fun s node => (s.cfgActive node).elim s s.cancel) s

/-- The diagnostics that `lely_rtt_master_cfg_dispatch` starts with. -/
def diagnose (s : State ρ) (node : Nat) (r : ρ) (info : NodeInfo) : State ρ :=
  {
    s.modify r fun request =>
      {
        request with
          diagnostic :=
            {
              request.diagnostic with
                stage := .ownerPrecheck
                object1f22 := info.object1f22
                applicationDcf := (s.cfgSources node).isSome
                externalCfgInd := info.externalCfgInd
                restoreRequested := info.restoreRequested
                applicationDcfEntries :=
                  (s.cfgSources node).getD request.diagnostic.applicationDcfEntries
            }
      } with
      dispatched := s.dispatched ++ [r]
  }

/-- The checks of `lely_rtt_master_cfg_dispatch` in their order, with the error of the first that fails. -/
def dispatchError (s : State ρ) (node : Nat) (info : NodeInfo) : Option RtErr :=
  if !s.masterNmt ∨ !s.canNet then
    some .busy
  else if (s.cfgActive node).isSome then
    some .busy
  else if !info.assigned then
    some .inval
  else if info.restoreRequested then
    some .nosys
  else if (s.cfgSources node).isSome ∧ info.externalCfgInd then
    some .busy
  else if !info.object1f22 ∧ (s.cfgSources node).isNone ∧ !info.externalCfgInd then
    some .nosys
  else if info.booting then
    some .busy
  else
    none

/-- The request becomes the active one of its node. -/
def activate (s : State ρ) (node : Nat) (r : ρ) : State ρ :=
  {
    s.modify r fun request =>
      { request with diagnostic := { request.diagnostic with stage := .lelySequence } } with
      cfgActive := Function.update s.cfgActive node (some r)
  }

/-- `lely_rtt_master_cfg_con`, where Lely gives up the confirmation. -/
def confirm (s : State ρ) (node : Nat) (r : ρ) (ac : BitVec 32) : State ρ :=
  let s := { s with cfgCon := Function.update s.cfgCon node none }
  if (s.heap r).cancelRequested then
    s.complete node r .canceled .ok ac
  else if ac ≠ 0 then
    s.complete node r .abort .ok ac
  else
    (s.modify r fun request =>
      { request with diagnostic := { request.diagnostic with stage := .complete } }).complete
        node r .ok .ok 0

/-- `lely_rtt_master_cfg_dcf_con` for the active request of the node -/
def dcfCon (s : State ρ) (node : Nat) (r : ρ) (idx subidx : Nat) (ac : BitVec 32) : State ρ :=
  (s.modify r fun request =>
    {
      request with
        diagnostic := { request.diagnostic with lastIndex := idx, lastSubindex := subidx }
    }).stage node r ac

/-- The diagnostics of `lely_rtt_master_cfg_ind` -/
def indicate (s : State ρ) (r : ρ) (entries : Nat) : State ρ :=
  s.modify r fun request =>
    {
      request with
        diagnostic :=
          { request.diagnostic with stage := .applicationDcf, applicationDcfEntries := entries }
    }

def setDownload (s : State ρ) (node : Nat) (running : Bool) : State ρ :=
  { s with download := Function.update s.download node running }

def push (s : State ρ) (frame : Frame ρ) : State ρ := { s with stack := frame :: s.stack }

/-- Lely may make a callback: the owner waits for Lely, or runs its event loop. -/
def InLely (s : State ρ) : Prop :=
  s.masterNmt = true
    ∧ match s.stack with
      | .reap _ :: _ | .retire _ _ :: _ => False
      | _ => True

/-- `lely_rtt_master_cfg_dispatch` gets a request from the command queue. -/
structure Dispatches (s : State ρ) (node : Nat) (r : ρ) : Prop where
  stack : s.stack = []
  fresh : r ∉ s.dispatched
  pos : 0 < node
  le : node ≤ numNodes

end State

section

variable {ρ : Type} [DecidableEq ρ]

/--
The steps of the owner, where `node r` is the node of the request `r`. Lely destroys its configuration
service for a node, which ends the download and drops the confirmation, before it confirms, before it
lets `co_nmt_cfg_req` fail, before it indicates the local state 0 or Pre-operational, and before
`co_nmt_destroy` returns.
-/
inductive Step (node : ρ → Nat) (s : State ρ) : Effect ρ → State ρ → Prop
  | dispatchRejected (r : ρ) (info : NodeInfo) (err : RtErr) : s.Dispatches (node r) r →
      s.dispatchError (node r) info = some err →
      Step node s ⟨.dispatch, [r], some r⟩
        ((s.diagnose (node r) r info).complete (node r) r .localError err 0)
  | dispatchRefused (r : ρ) (info : NodeInfo) : s.Dispatches (node r) r →
      s.dispatchError (node r) info = none →
      Step node s ⟨.dispatch, [r], some r⟩
        (((s.diagnose (node r) r info).activate (node r) r).complete (node r) r .localError .error 0)
  | dispatchAccepted (r : ρ) (info : NodeInfo) : s.Dispatches (node r) r →
      s.dispatchError (node r) info = none →
      Step node s ⟨.dispatch, [r], none⟩
        ({
          (s.diagnose (node r) r info).activate (node r) r with
            cfgCon := Function.update s.cfgCon (node r) (some r)
        }.push (.req r))
  -- `co_nmt_cfg_req` fails after all
  | reqFailed (r : ρ) (rest : List (Frame ρ)) : s.stack = .req r :: rest →
      s.download (node r) = false → s.cfgActive (node r) = some r →
      Step node s ⟨.inner, [r], some r⟩
        ({
          s with
            stack := rest
            cfgCon := Function.update s.cfgCon (node r) none
        }.complete (node r) r .localError .error 0)
  -- any other return of a call into Lely
  | return (frame : Frame ρ) (rest : List (Frame ρ)) : s.stack = frame :: rest →
      (frame = .res ∨ frame = .dcf ∨ frame = .call ∨ ∃ r, frame = .req r) →
      Step node s {} { s with stack := rest }
  | call : s.stack = [] → Step node s { origin := .loop } (s.push .call)
  | confirm (r : ρ) (ac : BitVec 32) : s.InLely → s.cfgCon (node r) = some r →
      s.download (node r) = false → Step node s ⟨.inner, [r], some r⟩ (s.confirm (node r) r ac)
  | dcfDropped (n : Nat) : s.InLely → s.download n = true →
      (s.cfgActive n = none ∨ s.cfgTearingDown = true) →
      Step node s {} (s.setDownload n false)
  | dcfStaged (n : Nat) (r : ρ) (idx subidx : Nat) (ac : BitVec 32) : s.InLely →
      s.download n = true → s.cfgActive n = some r → s.cfgTearingDown = false →
      Step node s ⟨.inner, [r], none⟩ ((s.setDownload n false).dcfCon n r idx subidx ac)
  -- `lely_rtt_master_cfg_ind` during a local reset or after the teardown has begun
  | indIgnored : s.InLely → Step node s {} s
  | indNoop (n : Nat) : s.InLely → s.cfgTearingDown = false →
      (s.cfgActive n = none ∨ s.cfgSources n = none) → Step node s {} (s.push .res)
  | indDcf (n : Nat) (r : ρ) (entries : Nat) : s.InLely → s.cfgTearingDown = false →
      s.cfgActive n = some r → s.cfgSources n = some entries →
      Step node s ⟨.inner, [r], none⟩ (((s.indicate r entries).setDownload n true).push .dcf)
  -- `co_csdo_dn_dcf_req` fails before it calls back
  | indFailed (n : Nat) (r : ρ) (entries : Nat) : s.InLely → s.cfgTearingDown = false →
      s.cfgActive n = some r → s.cfgSources n = some entries →
      Step node s ⟨.inner, [r], none⟩ ((s.indicate r entries).stage n r acError)
  | reap : s.stack = [] → Step node s { origin := .loop } (s.push (.reap 1))
  | reapNone (n : Nat) (rest : List (Frame ρ)) : s.stack = .reap n :: rest → n ≤ numNodes →
      s.cfgResumePending n = false → Step node s {} { s with stack := .reap (n + 1) :: rest }
  | reapDropped (n : Nat) (rest : List (Frame ρ)) : s.stack = .reap n :: rest → n ≤ numNodes →
      s.cfgResumePending n = true →
      (s.cfgTearingDown = true ∨ s.masterNmt = false ∨ s.cfgActive n = none) →
      Step node s {} { s.unstage n with stack := .reap (n + 1) :: rest }
  | reapPassed (n k : Nat) (r : ρ) (rest : List (Frame ρ)) : s.stack = .reap n :: rest →
      n ≤ numNodes → s.cfgResumePending n = true → s.cfgTearingDown = false →
      s.masterNmt = true → s.cfgActive n = some r → s.ticket n = some k →
      Step node s {}
        {
          s.unstage n with
            stack := .res :: .reap (n + 1) :: rest
            passed := s.passed ++ [(k, s.cfgResumeAbortCode n)]
        }
  | reapEnd (n : Nat) (rest : List (Frame ρ)) : s.stack = .reap n :: rest → numNodes < n →
      Step node s {} { s with stack := rest }
  -- `lely_rtt_master_cfg_on_nmt_command` for an accepted STOP or reset
  | nmtCommand (id : Nat) : s.stack = [] → id ≤ numNodes →
      Step node s ⟨.loop, (targets id).filterMap s.cfgActive, none⟩ (s.cancelActive (targets id))
  | cancelQueued (r : ρ) : s.Dispatches (node r) r →
      Step node s ⟨.drain, [r], some r⟩
        ({ s.cancel r with dispatched := s.dispatched ++ [r] }.finish r .canceled .ok 0)
  -- the local state 0 or Pre-operational
  | localState : s.InLely → (∀ n, s.download n = false) →
      Step node s {} ({ s with cfgCon := fun _ => none }.push (.retire 1 false))
  | retireNone (n : Nat) (final : Bool) (rest : List (Frame ρ)) : s.stack = .retire n final :: rest →
      n ≤ numNodes → s.cfgActive n = none →
      Step node s {} { s with stack := .retire (n + 1) final :: rest }
  | retire (n : Nat) (final : Bool) (r : ρ) (rest : List (Frame ρ)) :
      s.stack = .retire n final :: rest → n ≤ numNodes → s.cfgActive n = some r →
      Step node s ⟨.inner, [r], some r⟩
        { (s.cancel r).complete n r .canceled .ok 0 with stack := .retire (n + 1) final :: rest }
  | retireEnd (n : Nat) (rest : List (Frame ρ)) : s.stack = .retire n false :: rest → numNodes < n →
      Step node s {} { s with stack := rest }
  -- the rest of `lely_rtt_master_cfg_after_nmt_destroy`
  | destroyed (n : Nat) (rest : List (Frame ρ)) : s.stack = .retire n true :: rest → numNodes < n →
      Step node s {}
        {
          s with
            stack := rest
            cfgResumePending := fun _ => false
            cfgResumeAbortCode := fun _ => 0
            ticket := fun _ => none
            cfgTearingDown := false
        }
  -- `lely_rtt_master_cfg_prepare_nmt_destroy`
  | prepareNmtDestroy : s.stack = [] →
      Step node s ⟨.teardown, (targets 0).filterMap s.cfgActive, none⟩
        ({ s with cfgTearingDown := true }.cancelActive (targets 0))
  | nmtDestroy : s.stack = [] → s.masterNmt = true → s.cfgTearingDown = true →
      Step node s { origin := .teardown } (s.push .destroy)
  | nmtDestroyReturn : s.stack = [.destroy] → (∀ n, s.download n = false) →
      Step node s {}
        { s with stack := [.retire 1 true], cfgCon := fun _ => none, masterNmt := false }

/-- The state of a run before the owner takes its first command. -/
structure Start (s : State ρ) : Prop where
  heap : ∀ r, s.heap r = {}
  cfgActive : ∀ n, s.cfgActive n = none
  cfgResumePending : ∀ n, s.cfgResumePending n = false
  cfgResumeAbortCode : ∀ n, s.cfgResumeAbortCode n = 0
  cfgTearingDown : s.cfgTearingDown = false
  stack : s.stack = []
  cfgCon : ∀ n, s.cfgCon n = none
  download : ∀ n, s.download n = false
  dispatched : s.dispatched = []
  completed : s.completed = []
  staged : s.staged = []
  ticket : ∀ n, s.ticket n = none
  passed : s.passed = []

/-- The states that the owner reaches. -/
inductive Reachable (node : ρ → Nat) : State ρ → Prop
  | start {s} : Start s → Reachable node s
  | step {s effect s'} : Reachable node s → Step node s effect s' → Reachable node s'

/-! ### The invariant -/

def Frame.isRetire : Frame ρ → Bool
  | .retire _ _ => true
  | _ => false

structure Inv (node : ρ → Nat) (s : State ρ) : Prop where
  active : ∀ n r, s.cfgActive n = some r →
    node r = n ∧ n ≤ numNodes ∧ 0 < n ∧ r ∈ s.dispatched ∧ r ∉ s.completed
  dispatched : ∀ r ∈ s.completed, r ∈ s.dispatched
  nodup : s.completed.Nodup
  con : ∀ n r, s.cfgCon n = some r → s.cfgActive n = some r
  download : ∀ n, s.download n = true → s.cfgActive n ≠ none
  pending : ∀ n, s.cfgResumePending n = (s.ticket n).isSome
  ticket : ∀ n k, s.ticket n = some k →
    ∃ r, s.staged[k]? = some ⟨n, r, s.cfgResumeAbortCode n⟩ ∧ s.cfgActive n = some r
  passed : ∀ p ∈ s.passed, ∃ t, s.staged[p.1]? = some t ∧ t.ac = p.2 ∧ s.ticket t.node ≠ some p.1
  passed_nodup : (s.passed.map Prod.fst).Nodup
  -- a barrier runs behind the end of all that Lely held, and calls nothing
  retire : ∀ frame rest, s.stack = frame :: rest → frame.isRetire = true →
    ∀ n, s.cfgCon n = none ∧ s.download n = false
  below : ∀ frame ∈ s.stack.tail, frame.isRetire = false

variable {node : ρ → Nat} {s s' : State ρ} {effect : Effect ρ} {n : Nat} {r : ρ}

omit [DecidableEq ρ] in
theorem Start.inv (h : Start s) : Inv node s where
  active := by simp [h.cfgActive]
  dispatched := by simp [h.completed]
  nodup := by simp [h.completed]
  con := by simp [h.cfgCon]
  download := by simp [h.download]
  pending := by simp [h.cfgResumePending, h.ticket]
  ticket := by simp [h.ticket]
  passed := by simp [h.passed]
  passed_nodup := by simp [h.passed]
  retire := by simp [h.stack]
  below := by simp [h.stack]

omit [DecidableEq ρ] in
theorem dispatchError_eq_none {info : NodeInfo} (h : s.dispatchError n info = none)
    : s.cfgActive n = none := by
  cases hactive : s.cfgActive n with
  | none => rfl
  | some r =>
    simp only [State.dispatchError, hactive, Option.isSome_some, if_true] at h
    split at h <;> cases h

theorem cancelActive_eq (s : State ρ) (nodes : List Nat)
    : ∃ heap, s.cancelActive nodes = { s with heap := heap } := by
  induction nodes generalizing s with
  | nil => exact ⟨s.heap, rfl⟩
  | cons n nodes ih =>
    simp only [State.cancelActive, List.foldl_cons] at ih ⊢
    cases hactive : s.cfgActive n with
    | none => exact ih s
    | some r => exact ih (s.cancel r)

namespace Inv

section

omit [DecidableEq ρ]

/-- The requests themselves are not part of the invariant. -/
theorem heap (h : Inv node s) (heap : ρ → Request) : Inv node { s with heap := heap } :=
  ⟨h.active, h.dispatched, h.nodup, h.con, h.download, h.pending, h.ticket, h.passed, h.passed_nodup,
    h.retire, h.below⟩

theorem stack (h : Inv node s) {stack : List (Frame ρ)} (hbelow : ∀ frame ∈ stack.tail, frame.isRetire = false)
    (hretire : ∀ frame rest, stack = frame :: rest → frame.isRetire = true →
      ∀ n, s.cfgCon n = none ∧ s.download n = false)
    : Inv node { s with stack := stack } :=
  ⟨h.active, h.dispatched, h.nodup, h.con, h.download, h.pending, h.ticket, h.passed, h.passed_nodup,
    hretire, hbelow⟩

/-- Return to the frame below. -/
theorem pop (h : Inv node s) {frame : Frame ρ} {rest : List (Frame ρ)} (hstack : s.stack = frame :: rest)
    : Inv node { s with stack := rest } := by
  have hbelow := h.below
  simp only [hstack, List.tail_cons] at hbelow
  refine h.stack (fun frame hframe => hbelow frame (List.mem_of_mem_tail hframe)) ?_
  intro frame below hrest hretire
  have hfalse := hbelow frame (by simp [hrest])
  simp [hfalse] at hretire

/-- Put other frames in the place of the innermost one. -/
theorem replace (h : Inv node s) {frame : Frame ρ} {rest : List (Frame ρ)} (stack : List (Frame ρ))
    (hstack : s.stack = frame :: rest) (htop : ∀ frame ∈ stack, frame.isRetire = false)
    : Inv node { s with stack := stack ++ rest } := by
  have hbelow := h.below
  simp only [hstack, List.tail_cons] at hbelow
  have hall : ∀ frame ∈ stack ++ rest, frame.isRetire = false := by
    intro frame hframe
    obtain hframe | hframe := List.mem_append.mp hframe
    . exact htop frame hframe
    . exact hbelow frame hframe
  refine h.stack (fun frame hframe => hall frame (List.mem_of_mem_tail hframe)) ?_
  intro frame below hrest hretire
  have hfalse := hall frame (by simp [hrest])
  simp [hfalse] at hretire

theorem noRetire_of_inLely (h : Inv node s) (hlely : s.InLely) : ∀ frame ∈ s.stack, frame.isRetire = false := by
  intro frame hframe
  have hbelow := h.below
  cases hstack : s.stack with
  | nil => simp [hstack] at hframe
  | cons top rest =>
    rw [hstack] at hframe hbelow
    obtain rfl | hframe := List.mem_cons.mp hframe
    . have htop := hlely.2
      rw [hstack] at htop
      cases frame <;> simp_all [Frame.isRetire]
    . exact hbelow frame hframe

/-- Call into Lely or begin a loop. -/
theorem push (h : Inv node s) {frame : Frame ρ} (hframe : frame.isRetire = false)
    (hstack : ∀ frame ∈ s.stack, frame.isRetire = false) : Inv node (s.push frame) := by
  refine h.stack (by simpa using hstack) ?_
  intro top rest heq hretire
  obtain ⟨rfl, _⟩ := List.cons.inj heq
  simp [hframe] at hretire

/-- What `unstage` and the barriers do to the staged results. -/
theorem unstage (h : Inv node s) (n : Nat) : Inv node (s.unstage n) :=
  {
    h with
      pending := by
        intro m
        by_cases hm : m = n
        . simp [State.unstage, hm]
        . simpa [State.unstage, hm] using h.pending m
      ticket := by
        intro m k hk
        by_cases hm : m = n
        . simp [State.unstage, hm] at hk
        . simpa [State.unstage, hm] using h.ticket m k (by simpa [State.unstage, hm] using hk)
      passed := by
        intro p hp
        obtain ⟨t, ht, hac, hne⟩ := h.passed p hp
        refine ⟨t, ht, hac, ?_⟩
        by_cases hm : t.node = n
        . simp [State.unstage, hm]
        . simpa [State.unstage, hm] using hne
  }

/-- Nothing is staged any more. -/
theorem unstageAll (h : Inv node s)
    : Inv node
        {
          s with
            cfgResumePending := fun _ => false
            cfgResumeAbortCode := fun _ => 0
            ticket := fun _ => none
        } :=
  {
    h with
      pending := by simp
      ticket := by simp
      passed := by
        intro p hp
        obtain ⟨t, hget, hac, _⟩ := h.passed p hp
        exact ⟨t, hget, hac, by simp⟩
  }

theorem stage (h : Inv node s) (hactive : s.cfgActive n = some r) (ac : BitVec 32)
    : Inv node (s.stage n r ac) :=
  {
    h with
      pending := by
        intro m
        by_cases hm : m = n
        . simp [State.stage, hm]
        . simpa [State.stage, hm] using h.pending m
      ticket := by
        intro m k hk
        by_cases hm : m = n
        . subst hm
          obtain rfl : s.staged.length = k := by simpa [State.stage] using hk
          exact ⟨r, by simp [State.stage], hactive⟩
        . obtain ⟨r', hget, hactive'⟩ := h.ticket m k (by simpa [State.stage, hm] using hk)
          have hlt : k < s.staged.length := (List.getElem?_eq_some_iff.mp hget).1
          exact ⟨r', by simpa [State.stage, hm, List.getElem?_append_left hlt] using hget, hactive'⟩
      passed := by
        intro p hp
        obtain ⟨t, hget, hac, hne⟩ := h.passed p hp
        have hlt : p.1 < s.staged.length := (List.getElem?_eq_some_iff.mp hget).1
        refine ⟨t, by simpa [State.stage, List.getElem?_append_left hlt] using hget, hac, ?_⟩
        by_cases hm : t.node = n
        . simpa [State.stage, hm] using Nat.ne_of_gt hlt
        . simpa [State.stage, hm] using hne
  }

/-- The active request of a node is completed when Lely holds nothing of it. -/
theorem release (h : Inv node s) (hcon : s.cfgCon n = none) (hdownload : s.download n = false)
    : Inv node ({ s with cfgActive := Function.update s.cfgActive n none }.unstage n) :=
  {
    h with
      active := by
        intro m r hr
        by_cases hm : m = n
        . simp [State.unstage, hm] at hr
        . exact h.active m r (by simpa [State.unstage, hm] using hr)
      con := by
        intro m r hr
        have hm : m ≠ n := by
          rintro rfl
          simp [State.unstage, hcon] at hr
        simpa [State.unstage, hm] using h.con m r hr
      download := by
        intro m hm
        have hne : m ≠ n := by
          rintro rfl
          simp [State.unstage, hdownload] at hm
        simpa [State.unstage, hne] using h.download m hm
      pending := (h.unstage n).pending
      ticket := by
        intro m k hk
        have hm : m ≠ n := by
          rintro rfl
          simp [State.unstage] at hk
        obtain ⟨r, hget, hactive⟩ := (h.unstage n).ticket m k hk
        exact ⟨r, hget, by simpa [State.unstage, hm] using hactive⟩
      passed := (h.unstage n).passed
  }

theorem setDownload_false (h : Inv node s) (n : Nat) : Inv node (s.setDownload n false) :=
  {
    h with
      download := by
        intro m hm
        by_cases hmn : m = n
        . simp [State.setDownload, hmn] at hm
        . exact h.download m (by simpa [State.setDownload, hmn] using hm)
      retire := by
        intro frame rest hstack hretire m
        obtain ⟨hcon, hdownload⟩ := h.retire frame rest hstack hretire m
        refine ⟨hcon, ?_⟩
        by_cases hmn : m = n
        . simp [State.setDownload, hmn]
        . simpa [State.setDownload, hmn] using hdownload
  }

/-- Lely downloads the application DCF for an active request. -/
theorem setDownload_true (h : Inv node s) (hactive : s.cfgActive n = some r)
    (hstack : ∀ frame ∈ s.stack, frame.isRetire = false) : Inv node (s.setDownload n true) :=
  {
    h with
      download := by
        intro m hm
        by_cases hmn : m = n
        . simp [State.setDownload, hmn, hactive]
        . exact h.download m (by simpa [State.setDownload, hmn] using hm)
      retire := by
        intro frame rest heq hretire
        have hfalse := hstack frame (by rw [show s.stack = frame :: rest from heq] ; simp)
        simp [hfalse] at hretire
  }

/-- Lely drops every confirmation. -/
theorem dropCons (h : Inv node s) : Inv node { s with cfgCon := fun _ => none } :=
  {
    h with
      con := by simp
      retire := fun frame rest hstack hretire n => ⟨rfl, (h.retire frame rest hstack hretire n).2⟩
  }

theorem dropCon (h : Inv node s) (n : Nat)
    : Inv node { s with cfgCon := Function.update s.cfgCon n none } :=
  {
    h with
      con := by
        intro m r hr
        by_cases hm : m = n
        . simp [hm] at hr
        . exact h.con m r (by simpa [hm] using hr)
      retire := by
        intro frame rest hstack hretire m
        obtain ⟨hcon, hdownload⟩ := h.retire frame rest hstack hretire m
        refine ⟨?_, hdownload⟩
        by_cases hm : m = n
        . simp [hm]
        . simpa [hm] using hcon
  }

/-- A request is taken from the queue. -/
theorem dispatch (h : Inv node s) (r : ρ) : Inv node { s with dispatched := s.dispatched ++ [r] } :=
  {
    h with
      active := by
        intro m r' hr'
        obtain ⟨hnode, hle, hpos, hdispatched, hcompleted⟩ := h.active m r' hr'
        exact ⟨hnode, hle, hpos, List.mem_append_left _ hdispatched, hcompleted⟩
      dispatched := fun r' hr' => List.mem_append_left _ (h.dispatched r' hr')
  }

/-- Lely takes the confirmation of the active request. -/
theorem accept (h : Inv node s) (hactive : s.cfgActive n = some r) (hstack : s.stack = [])
    : Inv node { s with cfgCon := Function.update s.cfgCon n (some r) } :=
  {
    h with
      con := by
        intro m r' hr'
        by_cases hm : m = n
        . subst hm
          obtain rfl : r = r' := by simpa using hr'
          exact hactive
        . exact h.con m r' (by simpa [hm] using hr')
      retire := by simp [hstack]
  }

theorem not_active (h : Inv node s) (hfresh : r ∉ s.dispatched) (n : Nat) : s.cfgActive n ≠ some r :=
  fun hactive => hfresh (h.active n r hactive).2.2.2.1

theorem not_completed (h : Inv node s) (hfresh : r ∉ s.dispatched) : r ∉ s.completed :=
  fun hcompleted => hfresh (h.dispatched r hcompleted)

/-- Lely holds nothing for a node that has no active request. -/
theorem con_eq_none (h : Inv node s) (hnone : s.cfgActive n = none) : s.cfgCon n = none := by
  cases hcon : s.cfgCon n with
  | none => rfl
  | some r => simpa [hnone] using h.con n r hcon

theorem download_eq_false (h : Inv node s) (hnone : s.cfgActive n = none) : s.download n = false := by
  cases hdownload : s.download n with
  | false => rfl
  | true => exact absurd hnone (h.download n hdownload)

/-- The reaper takes the staged result of a node and passes it on. -/
theorem pass (h : Inv node s) {k : Nat} (hticket : s.ticket n = some k)
    : Inv node { s.unstage n with passed := s.passed ++ [(k, s.cfgResumeAbortCode n)] } := by
  obtain ⟨r, hget, _⟩ := h.ticket n k hticket
  have hfresh : k ∉ s.passed.map Prod.fst := by
    intro hmem
    obtain ⟨p, hp, rfl⟩ := List.mem_map.mp hmem
    obtain ⟨t, hget', _, hne⟩ := h.passed p hp
    obtain rfl : ⟨n, r, s.cfgResumeAbortCode n⟩ = t := Option.some.inj (hget.symm.trans hget')
    exact hne hticket
  exact
    {
      h.unstage n with
        passed := by
          intro p hp
          obtain hp | hp := List.mem_append.mp hp
          . exact (h.unstage n).passed p hp
          . rw [List.mem_singleton.mp hp]
            exact ⟨_, hget, rfl, by simp [State.unstage]⟩
        passed_nodup := by
          have hdisjoint : (s.passed.map Prod.fst).Disjoint [k] := by simpa using hfresh
          simpa using List.nodup_append'.mpr ⟨h.passed_nodup, List.nodup_singleton k, hdisjoint⟩
    }

/-- The loop of a barrier is at a node. -/
theorem barrier (h : Inv node s) (m : Nat) (final : Bool) (rest : List (Frame ρ))
    (hheld : ∀ n, s.cfgCon n = none ∧ s.download n = false)
    (hrest : ∀ frame ∈ rest, frame.isRetire = false)
    : Inv node { s with stack := .retire m final :: rest } :=
  h.stack (by simpa using hrest) (fun _ _ _ _ => hheld)

end

theorem modify (h : Inv node s) (r : ρ) (f : Request → Request) : Inv node (s.modify r f) :=
  h.heap _

/-- A request that was dispatched and is not active is completed. -/
theorem finish (h : Inv node s) (hdispatched : r ∈ s.dispatched) (hcompleted : r ∉ s.completed)
    (hactive : ∀ n, s.cfgActive n ≠ some r) (status : Status) (err : RtErr) (ac : BitVec 32)
    : Inv node (s.finish r status err ac) :=
  {
    h with
      active := by
        intro m r' hr'
        obtain ⟨hnode, hle, hpos, hdispatched', hcompleted'⟩ := h.active m r' hr'
        refine ⟨hnode, hle, hpos, hdispatched', ?_⟩
        have hne : r' ≠ r := fun heq => hactive m (heq ▸ hr')
        simpa [State.finish, hne] using hcompleted'
      dispatched := by
        intro r' hr'
        obtain hr' | hr' := List.mem_append.mp hr'
        . exact h.dispatched r' hr'
        . rw [List.mem_singleton.mp hr']
          exact hdispatched
      nodup := by
        have hdisjoint : s.completed.Disjoint [r] := by simpa using hcompleted
        exact List.nodup_append'.mpr ⟨h.nodup, List.nodup_singleton r, hdisjoint⟩
  }

/-- The active request of its node is completed when Lely holds nothing of it. -/
theorem complete (h : Inv node s) (hactive : s.cfgActive n = some r) (hcon : s.cfgCon n = none)
    (hdownload : s.download n = false) (status : Status) (err : RtErr) (ac : BitVec 32)
    : Inv node (s.complete n r status err ac) := by
  obtain ⟨hnode, hle, _, hdispatched, hcompleted⟩ := h.active n r hactive
  rw [State.complete, if_pos ⟨hle, hactive⟩]
  refine (h.release hcon hdownload).finish hdispatched hcompleted ?_ status err ac
  intro m hm
  by_cases hmn : m = n
  . simp [State.unstage, hmn] at hm
  . have hnode' := (h.active m r (by simpa [State.unstage, hmn] using hm)).1
    exact hmn (hnode'.symm.trans hnode)

/-- A request that has never been active is completed. -/
theorem complete_inactive (h : Inv node s) (hdispatched : r ∈ s.dispatched)
    (hcompleted : r ∉ s.completed) (hactive : ∀ n, s.cfgActive n ≠ some r) (n : Nat)
    (status : Status) (err : RtErr) (ac : BitVec 32)
    : Inv node (s.complete n r status err ac) := by
  rw [State.complete, if_neg (fun hand => hactive n hand.2)]
  exact h.finish hdispatched hcompleted hactive status err ac

theorem diagnose (h : Inv node s) (n : Nat) (r : ρ) (info : NodeInfo) : Inv node (s.diagnose n r info) :=
  (h.dispatch r).heap _

theorem activate (h : Inv node s) (hdispatched : r ∈ s.dispatched) (hcompleted : r ∉ s.completed)
    (hle : node r ≤ numNodes) (hpos : 0 < node r) (hnone : s.cfgActive (node r) = none) : Inv node (s.activate (node r) r) :=
  {
    h with
      active := by
        intro m r' hr'
        by_cases hm : m = node r
        . obtain rfl : r = r' := by simpa [State.activate, hm] using hr'
          exact ⟨hm.symm, hm ▸ hle, hm ▸ hpos, hdispatched, hcompleted⟩
        . exact h.active m r' (by simpa [State.activate, hm] using hr')
      con := by
        intro m r' hr'
        have hactive := h.con m r' hr'
        have hm : m ≠ node r := by
          rintro rfl
          simp [hnone] at hactive
        simpa [State.activate, hm] using hactive
      download := by
        intro m hm
        by_cases hmn : m = node r
        . simp [State.activate, hmn]
        . simpa [State.activate, hmn] using h.download m hm
      ticket := by
        intro m k hk
        obtain ⟨r', hget, hactive⟩ := h.ticket m k hk
        have hm : m ≠ node r := by
          rintro rfl
          simp [hnone] at hactive
        exact ⟨r', hget, by simpa [State.activate, hm] using hactive⟩
  }

/-- A fresh request is taken from the queue and becomes active. -/
theorem activated (h : Inv node s) (hd : s.Dispatches (node r) r) (info : NodeInfo)
    (hnone : s.cfgActive (node r) = none)
    : Inv node ((s.diagnose (node r) r info).activate (node r) r) :=
  (h.diagnose _ r info).activate (by simp [State.diagnose])
    (h.not_completed hd.fresh) hd.le hd.pos hnone

theorem cancelActive (h : Inv node s) (nodes : List Nat) : Inv node (s.cancelActive nodes) := by
  obtain ⟨heap, heq⟩ := cancelActive_eq s nodes
  rw [heq]
  exact h.heap heap

theorem step (h : Inv node s) (hstep : Step node s effect s') : Inv node s' := by
  cases hstep with
  | dispatchRejected r info err hd herr =>
    exact (h.diagnose _ r info).complete_inactive (by simp [State.diagnose])
      (h.not_completed hd.fresh) (h.not_active hd.fresh) _ _ _ _
  | dispatchRefused r info hd herr =>
    have hnone := dispatchError_eq_none herr
    exact (h.activated hd info hnone).complete (by simp [State.activate]) (h.con_eq_none hnone)
      (h.download_eq_false hnone) _ _ _
  | dispatchAccepted r info hd herr =>
    have hactivated := h.activated hd info (dispatchError_eq_none herr)
    refine (hactivated.accept (by simp [State.activate]) hd.stack).push rfl ?_
    simp [State.activate, State.modify, State.diagnose, hd.stack]
  | reqFailed r rest hstack hdownload hactive =>
    exact ((h.pop hstack).dropCon (node r)).complete hactive (by simp) hdownload _ _ _
  | «return» frame rest hstack _ => exact h.pop hstack
  | call hstack => exact h.push rfl (by simp [hstack])
  | confirm r ac hlely hcon hdownload =>
    have hactive := h.con _ r hcon
    have hdrop := h.dropCon (node r)
    simp only [State.confirm]
    split
    . exact hdrop.complete hactive (by simp) hdownload _ _ _
    . split
      . exact hdrop.complete hactive (by simp) hdownload _ _ _
      . exact (hdrop.modify r _).complete hactive (by simp [State.modify]) hdownload _ _ _
  | dcfDropped n _ _ _ => exact h.setDownload_false n
  | dcfStaged n r idx subidx ac _ _ hactive _ =>
    exact ((h.setDownload_false n).modify r _).stage hactive ac
  | indIgnored _ => exact h
  | indNoop n hlely _ _ => exact h.push rfl (h.noRetire_of_inLely hlely)
  | indDcf n r entries hlely _ hactive _ =>
    have hframes := h.noRetire_of_inLely hlely
    exact ((h.modify r _).setDownload_true hactive hframes).push rfl hframes
  | indFailed n r entries _ _ hactive _ => exact (h.modify r _).stage hactive acError
  | reap hstack => exact h.push rfl (by simp [hstack])
  | reapNone n rest hstack _ _ => exact h.replace [.reap (n + 1)] hstack (by simp [Frame.isRetire])
  | reapDropped n rest hstack _ _ _ =>
    exact (h.unstage n).replace [.reap (n + 1)] hstack (by simp [Frame.isRetire])
  | reapPassed n k r rest hstack _ _ _ _ _ hticket =>
    exact (h.pass hticket).replace [.res, .reap (n + 1)] hstack (by simp [Frame.isRetire])
  | reapEnd n rest hstack _ => exact h.pop hstack
  | nmtCommand id _ _ => exact h.cancelActive _
  | cancelQueued r hd =>
    exact ((h.dispatch r).heap _).finish (by simp) (h.not_completed hd.fresh) (h.not_active hd.fresh) _ _ _
  | localState hlely hdownload =>
    exact h.dropCons.barrier 1 false _ (fun n => ⟨rfl, hdownload n⟩) (h.noRetire_of_inLely hlely)
  | retireNone n final rest hstack _ _ =>
    exact h.barrier _ final rest (h.retire _ _ hstack rfl) (by simpa [hstack] using h.below)
  | retire n final r rest hstack _ hactive =>
    have hheld := h.retire _ _ hstack rfl
    have hcompleted := (h.modify r _).complete (s := s.cancel r) hactive (hheld n).1 (hheld n).2
      .canceled .ok 0
    refine hcompleted.barrier _ final rest ?_ (by simpa [hstack] using h.below)
    intro m
    rw [State.complete]
    split <;> exact hheld m
  | retireEnd n rest hstack _ => exact h.pop hstack
  | destroyed n rest hstack _ =>
    have hcleared := (h.pop hstack).unstageAll
    exact { hcleared with }
  | prepareNmtDestroy _ =>
    have htearing : Inv node { s with cfgTearingDown := true } := { h with }
    exact htearing.cancelActive _
  | nmtDestroy hstack _ _ => exact h.push rfl (by simp [hstack])
  | nmtDestroyReturn hstack hdownload =>
    have hbarrier := h.dropCons.barrier 1 true [] (fun n => ⟨rfl, hdownload n⟩) (by simp)
    exact { hbarrier with }

end Inv

theorem Reachable.inv (h : Reachable node s) : Inv node s := by
  induction h with
  | start h => exact h.inv
  | step _ hstep ih => exact ih.step hstep

@[simp]
theorem State.complete_passed (s : State ρ) (n : Nat) (r : ρ) (status : Status) (err : RtErr)
    (ac : BitVec 32) : (s.complete n r status err ac).passed = s.passed := by
  rw [State.complete]
  split <;> rfl

@[simp]
theorem State.complete_dispatched (s : State ρ) (n : Nat) (r : ρ) (status : Status) (err : RtErr)
    (ac : BitVec 32) : (s.complete n r status err ac).dispatched = s.dispatched := by
  rw [State.complete]
  split <;> rfl

@[simp]
theorem State.confirm_passed (s : State ρ) (n : Nat) (r : ρ) (ac : BitVec 32)
    : (s.confirm n r ac).passed = s.passed := by
  rw [State.confirm]
  split
  . simp
  . split <;> simp [State.modify]

@[simp]
theorem State.confirm_dispatched (s : State ρ) (n : Nat) (r : ρ) (ac : BitVec 32)
    : (s.confirm n r ac).dispatched = s.dispatched := by
  rw [State.confirm]
  split
  . simp
  . split <;> simp [State.modify]

@[simp]
theorem State.cancelActive_passed (s : State ρ) (nodes : List Nat)
    : (s.cancelActive nodes).passed = s.passed := by
  obtain ⟨heap, heq⟩ := cancelActive_eq s nodes
  rw [heq]

@[simp]
theorem State.cancelActive_dispatched (s : State ρ) (nodes : List Nat)
    : (s.cancelActive nodes).dispatched = s.dispatched := by
  obtain ⟨heap, heq⟩ := cancelActive_eq s nodes
  rw [heq]

/-- What a request that waits for its node to be configured sees of the owner. -/
structure State.SameFor (s s' : State ρ) (r : ρ) : Prop where
  heap : s'.heap r = s.heap r
  cfgActive : s'.cfgActive = s.cfgActive
  cfgResumePending : s'.cfgResumePending = s.cfgResumePending
  cfgResumeAbortCode : s'.cfgResumeAbortCode = s.cfgResumeAbortCode
  cfgCon : s'.cfgCon = s.cfgCon
  download : s'.download = s.download

omit [DecidableEq ρ] in
theorem dispatchError_of_active {info : NodeInfo} {err : RtErr} (hactive : s.cfgActive n = some r)
    (h : s.dispatchError n info = some err) : err = .busy := by
  simp only [State.dispatchError, hactive, Option.isSome_some, if_true] at h
  split at h <;> exact (Option.some.inj h).symm

/-- A request for a node that has an active one is completed at once. -/
theorem rejected_of_active {r' : ρ} (h : Inv node s) (hactive : s.cfgActive (node r') = some r)
    (hfresh : r' ∉ s.dispatched) (hstep : Step node s effect s') (htaken : r' ∈ s'.dispatched)
    : s.SameFor s' r ∧ s'.completed = s.completed ++ [r']
      ∧ ((s'.heap r').status = .localError ∧ (s'.heap r').localError = .busy
        ∨ (s'.heap r').status = .canceled) := by
  have hne : r ≠ r' := fun heq => hfresh (heq ▸ (h.active _ r hactive).2.2.2.1)
  cases hstep with
  | dispatchRejected q info err hd herr =>
    obtain rfl : q = r' := by
      simpa [State.diagnose, hfresh, eq_comm] using htaken
    obtain rfl := dispatchError_of_active hactive herr
    have hother : (s.diagnose (node q) q info).cfgActive (node q) ≠ some q := h.not_active hfresh _
    rw [State.complete, if_neg (fun hand => hother hand.2)]
    refine ⟨⟨?_, rfl, rfl, rfl, rfl, rfl⟩, rfl, ?_⟩
    . simp [State.finish, State.modify, State.diagnose, hne]
    . simp [State.finish, State.modify]
  | dispatchRefused q info hd herr | dispatchAccepted q info hd herr =>
    obtain rfl : q = r' := by
      simpa [State.diagnose, State.activate, State.modify, State.push, hfresh, eq_comm] using htaken
    simp [dispatchError_eq_none herr] at hactive
  | cancelQueued q hd =>
    obtain rfl : q = r' := by
      simpa [State.finish, State.modify, hfresh, eq_comm] using htaken
    refine ⟨⟨?_, rfl, rfl, rfl, rfl, rfl⟩, rfl, ?_⟩
    . simp [State.finish, State.modify, State.cancel, hne]
    . simp [State.finish, State.modify]
  | reqFailed _ _ _ _ _ | confirm _ _ _ _ _ | nmtCommand _ _ _ | prepareNmtDestroy _
  | retire _ _ _ _ _ _ _ => exact absurd (by simpa [State.cancel, State.modify] using htaken) hfresh
  | _ => exact absurd htaken hfresh

/-- The reaper passes on a result only for the request that it was staged for. -/
theorem staged_of_passed (h : Inv node s) (hstep : Step node s effect s')
    (hpassed : s'.passed ≠ s.passed)
    : ∃ k t, s'.passed = s.passed ++ [(k, t.ac)] ∧ s.staged[k]? = some t
      ∧ s.cfgActive t.node = some t.request ∧ t.request ∉ s.completed
      ∧ s.cfgTearingDown = false := by
  cases hstep with
  | reapPassed n k r rest hstack hle hpending htearing _ _ hticket =>
    obtain ⟨r, hget, hactive⟩ := h.ticket n k hticket
    exact ⟨k, _, rfl, hget, hactive, (h.active n r hactive).2.2.2.2, htearing⟩
  | dispatchRejected _ _ _ _ _ | dispatchRefused _ _ _ _ | reqFailed _ _ _ _ _ | confirm _ _ _ _ _
  | nmtCommand _ _ _ | prepareNmtDestroy _ | retire _ _ _ _ _ _ _ =>
    exact absurd (by simp [State.cancel, State.modify, State.activate, State.diagnose]) hpassed
  | _ => exact absurd rfl hpassed

/--
At most one request of a node is active, and another one for it is rejected without a change to the
first. A staged result belongs to the active request. The reaper passes on each at most once, with its
abort code, and only while its request is active and the teardown has not begun. The application DCF is
downloaded only while a request of its node is active.
-/
theorem deferred_resume (h : Reachable node s)
    : (∀ n r, s.cfgActive n = some r → node r = n ∧ r ∉ s.completed)
      ∧ (∀ r r' effect s', s.cfgActive (node r') = some r → r' ∉ s.dispatched →
        Step node s effect s' → r' ∈ s'.dispatched →
        s.SameFor s' r ∧ s'.completed = s.completed ++ [r']
          ∧ ((s'.heap r').status = .localError ∧ (s'.heap r').localError = .busy
            ∨ (s'.heap r').status = .canceled))
      ∧ (∀ n, s.cfgResumePending n = true → ∃ k t, s.ticket n = some k ∧ s.staged[k]? = some t
        ∧ t.node = n ∧ t.ac = s.cfgResumeAbortCode n ∧ s.cfgActive n = some t.request)
      ∧ (s.passed.map Prod.fst).Nodup
      ∧ (∀ p ∈ s.passed, ∃ t, s.staged[p.1]? = some t ∧ t.ac = p.2)
      ∧ (∀ effect s', Step node s effect s' → s'.passed ≠ s.passed →
        ∃ k t, s'.passed = s.passed ++ [(k, t.ac)] ∧ s.staged[k]? = some t
          ∧ s.cfgActive t.node = some t.request ∧ t.request ∉ s.completed
          ∧ s.cfgTearingDown = false)
      ∧ (∀ n, s.download n = true → ∃ r, s.cfgActive n = some r ∧ r ∉ s.completed) := by
  have hinv := h.inv
  refine ⟨?_, ?_, ?_, hinv.passed_nodup, ?_, ?_, ?_⟩
  . intro n r hactive
    obtain ⟨hnode, _, _, _, hcompleted⟩ := hinv.active n r hactive
    exact ⟨hnode, hcompleted⟩
  . intro r r' effect s' hactive hfresh hstep htaken
    exact rejected_of_active hinv hactive hfresh hstep htaken
  . intro n hpending
    rw [hinv.pending, Option.isSome_iff_exists] at hpending
    obtain ⟨k, hk⟩ := hpending
    obtain ⟨r, hget, hactive⟩ := hinv.ticket n k hk
    exact ⟨k, _, hk, hget, rfl, rfl, hactive⟩
  . intro p hp
    obtain ⟨t, hget, hac, _⟩ := hinv.passed p hp
    exact ⟨t, hget, hac⟩
  . intro effect s' hstep hpassed
    exact staged_of_passed hinv hstep hpassed
  . intro n hdownload
    obtain ⟨r, hactive⟩ := Option.ne_none_iff_exists'.mp (hinv.download n hdownload)
    exact ⟨r, hactive, (hinv.active n r hactive).2.2.2.2⟩

end

/-- The DCF of a request is downloaded in the configuration call, and the reaper finds its result. -/
theorem deferred_resume_staged
    : ∃ s : State Unit, Reachable (fun _ => 1) s ∧ s.cfgResumePending 1 = true
      ∧ ∃ k t, s.ticket 1 = some k ∧ s.staged[k]? = some t ∧ t.node = 1
        ∧ t.ac = s.cfgResumeAbortCode 1 ∧ s.cfgActive 1 = some t.request := by
  let s : State Unit :=
    {
      heap := fun _ => {}
      cfgActive := fun _ => none
      cfgResumePending := fun _ => false
      cfgResumeAbortCode := fun _ => 0
      cfgTearingDown := false
      cfgSources := fun _ => some 3
      masterNmt := true
      canNet := true
      stack := []
      cfgCon := fun _ => none
      download := fun _ => false
      dispatched := []
      completed := []
      staged := []
      ticket := fun _ => none
      passed := []
    }
  have hstart : Start s := by constructor <;> intros <;> rfl
  have hrun : Reachable (fun _ => 1) s := .start hstart
  have hreq := hrun.step
    (.dispatchAccepted () ⟨true, false, false, false, false⟩
      ⟨rfl, by simp [s], by decide, by decide⟩ (by decide))
  have hdcf := hreq.step (.indDcf 1 () 3 ⟨rfl, trivial⟩ rfl rfl rfl)
  have hreturned := (hdcf.step (.return .dcf _ rfl (by simp))).step
    (.return (.req ()) _ rfl (by simp))
  have hstaged := hreturned.step (.dcfStaged 1 () 0x1400 1 0 ⟨rfl, trivial⟩ rfl rfl rfl)
  exact ⟨_, hstaged, rfl, (deferred_resume hstaged).2.2.1 1 rfl⟩

end LelyRtt.Cfg
