import LelyRtt.Sdo.Gate

/-!
This module contains the indications by which Lely reports the states and boot results of remote
nodes, the packed snapshots they publish for other threads, and the proof that the snapshots and the
SDO gate are what the ordered history of the indications says.
-/

namespace LelyRtt.Remote

/-! ### The packed words -/

/-- `LELY_RTT_NMT_STATE_UNAVAILABLE` -/
def unavailable : BitVec 8 := 0xff#8

/-- `LELY_RTT_REMOTE_STATE_TIMEOUT` -/
def stateTimeout : BitVec 32 := 0x00010000#32

/-- `LELY_RTT_REMOTE_BOOT_VALID` -/
def bootValid : BitVec 32 := 0x00010000#32

/-- `lely_rtt_remote_state_pack` -/
def statePack (current last : BitVec 8) (timedOut : Bool) : BitVec 32 :=
  let value := current.setWidth 32 ||| last.setWidth 32 <<< 8
  if timedOut then value ||| stateTimeout else value

/-- `(rt_uint8_t)(snapshot & LELY_RTT_REMOTE_STATE_CURRENT_MASK)` -/
def current (snapshot : BitVec 32) : BitVec 8 := (snapshot &&& 0x000000ff#32).setWidth 8

/-- `(rt_uint8_t)(snapshot >> LELY_RTT_REMOTE_STATE_LAST_SHIFT)`, and the same for a boot error -/
def second (snapshot : BitVec 32) : BitVec 8 := (snapshot >>> 8).setWidth 8

/-- `st & ~CO_NMT_ST_TOGGLE` -/
def untoggled (st : BitVec 8) : BitVec 8 := st &&& ~~~0x80#8

/-! ### The indications -/

/-- What the owner publishes about the remote nodes, and the gate of the application's SDOs. -/
structure Snapshots where
  remoteNmtState : Nat → BitVec 32
  remoteBootResult : Nat → BitVec 32
  gate : Gate

/-- `lely_rtt_master_snapshots_reset` -/
def Snapshots.reset : Snapshots where
  remoteNmtState := fun _ => statePack unavailable unavailable false
  remoteBootResult := fun _ => 0
  gate := .opened

/-- `CO_NMT_EC_OCCURRED` and `CO_NMT_EC_RESOLVED` -/
inductive HbState where
  | occurred
  | resolved
  deriving DecidableEq, Repr

/-- A completed boot process: its state and its error status. -/
structure Boot where
  st : BitVec 8
  es : BitVec 8
  deriving DecidableEq, Repr

inductive Indication where
  -- `nested` are the boot completions that `co_nmt_on_st` delivers before it returns, `booting` is
  -- what `co_nmt_is_booting` answers behind it
  | state (id : Nat) (st : BitVec 8) (nested : List Boot) (booting : Bool)
  -- a heartbeat event; `timeout` is whether its reason is `CO_NMT_EC_TIMEOUT`
  | hb (id : Nat) (state : HbState) (timeout : Bool)
  | boot (id : Nat) (boot : Boot)
  -- an NMT command that Lely has accepted
  | command (id : Nat) (command : NmtCommand)
  deriving DecidableEq, Repr

/-- `!id || id > CO_NUM_NODES` -/
def invalidId (id : Nat) : Bool := id = 0 ∨ id > numNodes

/-- `lely_rtt_master_boot_ind` -/
def bootInd (s : Snapshots) (id : Nat) (boot : Boot) : Snapshots :=
  if invalidId id then
    s
  else
    let state := untoggled boot.st
    {
      gate := s.gate.onBootComplete id state.toNat
      remoteNmtState := Function.update s.remoteNmtState id (statePack state state false)
      remoteBootResult := Function.update s.remoteBootResult id
        (bootValid ||| boot.es.setWidth 32 <<< 8 ||| state.setWidth 32)
    }

/-- The part of `lely_rtt_master_state_ind` before it calls `co_nmt_on_st`. -/
def beforeState (s : Snapshots) (localId id : Nat) (state : BitVec 8) : Snapshots :=
  if !invalidId id ∧ id ≠ localId ∧ state.toNat = stBootup then
    {
      s with
        remoteBootResult := Function.update s.remoteBootResult id 0
        gate := s.gate.setSuspended id true true
    }
  else
    s

/-- The part of `lely_rtt_master_state_ind` behind `co_nmt_on_st`. -/
def afterState (s : Snapshots) (localId id : Nat) (state : BitVec 8) (booting : Bool) : Snapshots :=
  if id = localId ∨ invalidId id then
    s
  else if state.toNat = stBootup ∧ s.remoteBootResult id &&& bootValid ≠ 0 then
    s
  else
    {
      s with
        gate := s.gate.onNmtState id state.toNat booting
        remoteNmtState := Function.update s.remoteNmtState id (statePack state state false)
    }

/-- `lely_rtt_master_state_ind` -/
def stateInd (s : Snapshots) (localId id : Nat) (st : BitVec 8) (nested : List Boot) (booting : Bool)
    : Snapshots :=
  let state := untoggled st
  let s := beforeState s localId id state
  let s := nested.foldl (fun s boot => bootInd s id boot) s
  afterState s localId id state booting

/-- `lely_rtt_master_hb_ind` -/
def hbInd (s : Snapshots) (id : Nat) (state : HbState) (timeout : Bool) : Snapshots :=
  if invalidId id ∨ !timeout then
    s
  else
    let snapshot := s.remoteNmtState id
    let last := second snapshot
    match state with
    | .occurred =>
      { s with remoteNmtState := Function.update s.remoteNmtState id (statePack unavailable last true) }
    | .resolved =>
      if snapshot &&& stateTimeout ≠ 0 then
        { s with remoteNmtState := Function.update s.remoteNmtState id (statePack last last false) }
      else
        s

def indicate (localId : Nat) (s : Snapshots) : Indication → Snapshots
  | .state id st nested booting => stateInd s localId id st nested booting
  | .hb id state timeout => hbInd s id state timeout
  | .boot id boot => bootInd s id boot
  | .command id command => { s with gate := s.gate.onNmtCommand id command }

/-- The snapshots after the indications of a run. -/
def run (localId : Nat) (history : List Indication) : Snapshots :=
  history.foldl (indicate localId) .reset

/-- `lely_rtt_runtime_get_remote_nmt_state` -/
def getRemoteNmtState (s : Snapshots) (node : Nat) : Except RtErr (BitVec 8) :=
  if invalidId node then
    .error .inval
  else
    let current := current (s.remoteNmtState node)
    if current = unavailable then .error .busy else .ok current

/-- `lely_rtt_runtime_get_remote_boot_status` -/
def getRemoteBootStatus (s : Snapshots) (node : Nat) : Except RtErr Boot :=
  if invalidId node then
    .error .inval
  else
    let result := s.remoteBootResult node
    if result &&& bootValid = 0 then .error .busy else .ok ⟨current result, second result⟩

/-! ### The history of one node -/

/-- What an indication reports about a node; a nested completion comes after its Boot-up. -/
inductive Report where
  | state (state : BitVec 8)
  | boot (boot : Boot)
  | timeout
  | resolved
  deriving DecidableEq, Repr

/-- The reports of an indication about `node`, in their order. -/
def Indication.reports (node : Nat) : Indication → List Report
  | .state id st nested _ =>
    if id = node then .state (untoggled st) :: nested.map .boot else []
  | .hb id hbState timeout =>
    if id = node ∧ timeout then
      match hbState with
      | .occurred => [.timeout]
      | .resolved => [.resolved]
    else
      []
  | .boot id done => if id = node then [.boot done] else []
  | .command _ _ => []

def reports (node : Nat) (history : List Indication) : List Report :=
  history.flatMap (·.reports node)

/-- The last state that was reported, latest report first. -/
def lastState : List Report → Option (BitVec 8)
  | [] => none
  | .state state :: _ => some state
  | .boot boot :: _ => some (untoggled boot.st)
  | .timeout :: earlier => lastState earlier
  | .resolved :: earlier => lastState earlier

/-- A heartbeat timeout was reported after the last state and not resolved, latest report first. -/
def timedOut : List Report → Bool
  | [] => false
  | .state _ :: _ => false
  | .boot _ :: _ => false
  | .timeout :: _ => true
  | .resolved :: _ => false

/-- The last boot completion if no Boot-up came after it, latest report first. -/
def lastBoot : List Report → Option Boot
  | [] => none
  | .state state :: earlier => if state.toNat = stBootup then none else lastBoot earlier
  | .boot boot :: _ => some ⟨untoggled boot.st, boot.es⟩
  | .timeout :: earlier => lastBoot earlier
  | .resolved :: earlier => lastBoot earlier

/-- What the application is to see of a node's state. -/
def observedState (history : List Report) : Except RtErr (BitVec 8) :=
  if timedOut history.reverse then
    .error .busy
  else
    match lastState history.reverse with
    | none => .error .busy
    | some state => .ok state

def observedBoot (history : List Report) : Except RtErr Boot :=
  match lastBoot history.reverse with
  | none => .error .busy
  | some boot => .ok boot

/-- The events of the gate in their order. -/
def Indication.gateEvents (localId : Nat) : Indication → List GateEvent
  | .state id st nested booting =>
    if id = localId then
      []
    else
      .state id (untoggled st).toNat booting
        :: nested.map fun done => .bootComplete id (untoggled done.st).toNat
  | .hb _ _ _ => []
  | .boot id done => [.bootComplete id (untoggled done.st).toNat]
  | .command id nmtCommand => [.command id nmtCommand]

/-- Boot completions are delivered within the Boot-up of a remote node only. -/
def Indication.Valid (localId : Nat) : Indication → Prop
  | .state id st nested _ =>
    nested ≠ [] → !invalidId id ∧ id ≠ localId ∧ (untoggled st).toNat = stBootup
  | _ => True

/-! ### Fields of the words -/

theorem current_eq (word : BitVec 32) : current word = word.setWidth 8 := by
  have hmask : (0x000000ff#32).setWidth 8 = BitVec.allOnes 8 := by decide
  rw [current, BitVec.setWidth_and, hmask, BitVec.and_allOnes]

theorem flag_low {i : Nat} (hi : i < 8) : stateTimeout.getLsbD (8 + i) = false := by
  have hflag : stateTimeout = BitVec.twoPow 32 16 := by decide
  have hne : ¬16 = 8 + i := by omega
  rw [hflag, BitVec.getLsbD_twoPow]
  simp [hne]

theorem bootValid_eq : bootValid = stateTimeout := rfl

theorem getLsbD_shifted (byte : BitVec 8) {i : Nat} (hi : i < 8)
    : (byte.setWidth 32 <<< 8).getLsbD (8 + i) = byte[i] := by
  have hlt : 8 + i < 32 := by omega
  simp [hlt, BitVec.getLsbD_eq_getElem hi]

theorem current_statePack (cur last : BitVec 8) (timedOut : Bool)
    : current (statePack cur last timedOut) = cur := by
  rw [current_eq, statePack]
  ext i hi
  cases timedOut <;> simp [stateTimeout]

theorem second_statePack (cur last : BitVec 8) (timedOut : Bool)
    : second (statePack cur last timedOut) = last := by
  rw [second, statePack]
  ext i hi
  cases timedOut <;> simp [flag_low hi, getLsbD_shifted last hi]

theorem statePack_timeout (cur last : BitVec 8) (timedOut : Bool)
    : statePack cur last timedOut &&& stateTimeout = if timedOut then stateTimeout else 0 := by
  have hflag : stateTimeout = BitVec.twoPow 32 16 := by decide
  rw [hflag, BitVec.and_twoPow, ← hflag, statePack]
  cases timedOut <;> simp [stateTimeout]

/-- The word of a boot result. -/
def bootWord (boot : Boot) : BitVec 32 :=
  bootValid ||| boot.es.setWidth 32 <<< 8 ||| boot.st.setWidth 32

theorem current_bootWord (boot : Boot) : current (bootWord boot) = boot.st := by
  rw [current_eq, bootWord]
  ext i hi
  simp [bootValid]

theorem second_bootWord (boot : Boot) : second (bootWord boot) = boot.es := by
  rw [second, bootWord]
  ext i hi
  simp [bootValid_eq, flag_low hi, getLsbD_shifted boot.es hi]

theorem bootWord_valid (boot : Boot) : bootWord boot &&& bootValid ≠ 0 := by
  have hflag : bootValid = BitVec.twoPow 32 16 := by decide
  rw [hflag, BitVec.and_twoPow, ← hflag, bootWord]
  simp [bootValid]

theorem untoggled_ne (st : BitVec 8) : untoggled st ≠ unavailable := by
  intro h
  have hbit := congrArg (·.getLsbD 7) h
  simp [untoggled, unavailable] at hbit

/-! ### The snapshots of one node -/

section

variable {localId node : Nat} {s : Snapshots} {earlier : List Report}

/-- The snapshots of the node are what its reports say, latest report first. -/
structure Agrees (node : Nat) (s : Snapshots) (earlier : List Report) : Prop where
  state : s.remoteNmtState node
    = statePack (if timedOut earlier then unavailable else (lastState earlier).getD unavailable)
      ((lastState earlier).getD unavailable) (timedOut earlier)
  boot : s.remoteBootResult node = match lastBoot earlier with
    | none => 0
    | some boot => bootWord boot

@[simp]
theorem timedOut_state (state : BitVec 8) : timedOut (.state state :: earlier) = false := rfl

@[simp]
theorem timedOut_boot (boot : Boot) : timedOut (.boot boot :: earlier) = false := rfl

@[simp]
theorem timedOut_timeout : timedOut (.timeout :: earlier) = true := rfl

@[simp]
theorem timedOut_resolved : timedOut (.resolved :: earlier) = false := rfl

theorem agrees_reset : Agrees node .reset [] where
  state := rfl
  boot := rfl

/-- Indications about other nodes leave the words of the node alone. -/
def Same (node : Nat) (s s' : Snapshots) : Prop :=
  s'.remoteNmtState node = s.remoteNmtState node
    ∧ s'.remoteBootResult node = s.remoteBootResult node

theorem Same.trans {s s' s'' : Snapshots} (h : Same node s s') (h' : Same node s' s'')
    : Same node s s'' :=
  ⟨h'.1.trans h.1, h'.2.trans h.2⟩

theorem Agrees.same {s' : Snapshots} (h : Agrees node s earlier) (hsame : Same node s s')
    : Agrees node s' earlier where
  state := hsame.1.trans h.state
  boot := hsame.2.trans h.boot

theorem same_bootInd {id : Nat} (hne : node ≠ id) (s : Snapshots) (boot : Boot)
    : Same node s (bootInd s id boot) := by
  unfold bootInd
  split
  . exact ⟨rfl, rfl⟩
  . simp [Same, hne]

theorem same_nested {id : Nat} (hne : node ≠ id) (s : Snapshots) (boots : List Boot)
    : Same node s (boots.foldl (fun s boot => bootInd s id boot) s) := by
  induction boots generalizing s with
  | nil => exact ⟨rfl, rfl⟩
  | cons boot rest ih => exact (same_bootInd hne s boot).trans (ih _)

theorem same_stateInd {id : Nat} (hne : node ≠ id) (s : Snapshots) (st : BitVec 8)
    (nested : List Boot) (booting : Bool) : Same node s (stateInd s localId id st nested booting) := by
  have hbefore (s : Snapshots) : Same node s (beforeState s localId id (untoggled st)) := by
    unfold beforeState
    split
    . simp [Same, hne]
    . exact ⟨rfl, rfl⟩
  have hafter (s : Snapshots) : Same node s (afterState s localId id (untoggled st) booting) := by
    unfold afterState
    split
    . exact ⟨rfl, rfl⟩
    . split
      . exact ⟨rfl, rfl⟩
      . simp [Same, hne]
  exact ((hbefore s).trans (same_nested hne _ nested)).trans (hafter _)

/-- A boot completion replaces both words. -/
theorem agrees_bootInd (hnode : invalidId node = false) (s : Snapshots) (boot : Boot)
    (earlier : List Report) : Agrees node (bootInd s node boot) (.boot boot :: earlier) := by
  constructor <;> simp [bootInd, hnode, lastState, lastBoot, bootWord]

theorem Agrees.hb_node (h : Agrees node s earlier) (hnode : invalidId node = false)
    : Agrees node (hbInd s node .occurred true) (.timeout :: earlier)
      ∧ Agrees node (hbInd s node .resolved true) (.resolved :: earlier) := by
  have hlast : second (s.remoteNmtState node) = (lastState earlier).getD unavailable := by
    rw [h.state, second_statePack]
  constructor
  . constructor
    . simp [hbInd, hnode, hlast, lastState]
    . simpa [hbInd, hnode, lastBoot] using h.boot
  . have hflag : s.remoteNmtState node &&& stateTimeout
        = if timedOut earlier then stateTimeout else 0 := by
      rw [h.state, statePack_timeout]
    cases htimeout : timedOut earlier with
    | true =>
      have hset : s.remoteNmtState node &&& stateTimeout ≠ 0#32 := by
        rw [hflag, htimeout]
        decide
      constructor
      . simp [hbInd, hnode, hlast, hset, lastState]
      . simpa [hbInd, hnode, hset, lastBoot] using h.boot
    | false =>
      have hclear : s.remoteNmtState node &&& stateTimeout = 0 := by
        rw [hflag, htimeout]
        rfl
      have hstate := h.state
      rw [htimeout] at hstate
      constructor
      . simpa [hbInd, hnode, hclear, lastState] using hstate
      . simpa [hbInd, hnode, hclear, lastBoot] using h.boot

/-- A state that is not a Boot-up. -/
theorem Agrees.state_node (h : Agrees node s earlier) (hnode : invalidId node = false)
    (hlocal : node ≠ localId) {st : BitVec 8} (hst : (untoggled st).toNat ≠ stBootup) (booting : Bool)
    : Agrees node (stateInd s localId node st [] booting) (.state (untoggled st) :: earlier) := by
  have hboot := h.boot
  constructor
  . simp [stateInd, beforeState, afterState, hnode, hlocal, hst, lastState]
  . simpa [stateInd, beforeState, afterState, hnode, hlocal, hst, lastBoot] using hboot

/-- A completion within the call has published everything, and the outer handler stops there. -/
theorem afterState_nested (hnode : invalidId node = false) (hlocal : node ≠ localId)
    {state : BitVec 8} (hstate : state.toNat = stBootup) (s : Snapshots) {nested : List Boot}
    (hnested : nested ≠ []) (booting : Bool)
    : afterState (nested.foldl (fun s boot => bootInd s node boot) s) localId node state booting
      = nested.foldl (fun s boot => bootInd s node boot) s := by
  obtain ⟨init, boot, rfl⟩ := (List.eq_nil_or_concat' nested).resolve_left hnested
  rw [List.foldl_append, List.foldl_cons, List.foldl_nil]
  have hresult (s : Snapshots)
      : (bootInd s node boot).remoteBootResult node &&& bootValid ≠ 0#32 := by
    rw [(agrees_bootInd hnode s boot []).boot]
    exact bootWord_valid _
  simp [afterState, hnode, hlocal, hstate, hresult]

/-- A Boot-up, with the boot completions nested in it. -/
theorem agrees_bootup (hnode : invalidId node = false) (hlocal : node ≠ localId) {st : BitVec 8}
    (hst : (untoggled st).toNat = stBootup) (s : Snapshots) (nested : List Boot) (booting : Bool)
    (earlier : List Report)
    : Agrees node (stateInd s localId node st nested booting)
      ((nested.map Report.boot).reverse ++ .state (untoggled st) :: earlier) := by
  by_cases hnested : nested = []
  case pos =>
    subst hnested
    constructor
      <;> simp [stateInd, beforeState, afterState, hnode, hlocal, hst, lastState, lastBoot]
  case neg =>
    rw [stateInd, afterState_nested hnode hlocal hst _ hnested]
    obtain ⟨init, boot, rfl⟩ := (List.eq_nil_or_concat' nested).resolve_left hnested
    rw [List.foldl_append, List.map_append, List.reverse_append]
    exact agrees_bootInd hnode _ boot _

/-- Every indication adds its reports. -/
theorem Agrees.indicate (h : Agrees node s earlier) (hnode : invalidId node = false)
    (hlocal : node ≠ localId) {indication : Indication} (hvalid : indication.Valid localId)
    : Agrees node (indicate localId s indication) ((indication.reports node).reverse ++ earlier) := by
  cases indication with
  | state id st nested booting =>
    by_cases heq : id = node
    case pos =>
      subst heq
      simp only [Indication.reports, if_true, List.reverse_cons, List.append_assoc,
        List.singleton_append]
      by_cases hst : (untoggled st).toNat = stBootup
      case pos => exact agrees_bootup hnode hlocal hst s nested booting earlier
      case neg =>
        cases nested with
        | nil => exact h.state_node hnode hlocal hst booting
        | cons boot rest => exact absurd (hvalid (by simp)).2.2 hst
    case neg =>
      simp only [Indication.reports, heq, if_false, List.reverse_nil, List.nil_append]
      exact h.same (same_stateInd (Ne.symm heq) s st nested booting)
  | hb id state timeout =>
    by_cases heq : id = node ∧ timeout = true
    case pos =>
      obtain ⟨rfl, rfl⟩ := heq
      cases state with
      | occurred => simpa [Indication.reports, Remote.indicate] using (h.hb_node hnode).1
      | resolved => simpa [Indication.reports, Remote.indicate] using (h.hb_node hnode).2
    case neg =>
      simp only [Indication.reports, heq, if_false, List.reverse_nil, List.nil_append]
      apply h.same
      by_cases htimeout : timeout = true
      case pos =>
        have hne : node ≠ id := fun h => heq ⟨h.symm, htimeout⟩
        simp only [Remote.indicate, hbInd]
        split
        . exact ⟨rfl, rfl⟩
        . cases state with
          | occurred => simp [Same, hne]
          | resolved =>
            dsimp only
            split
            . simp [Same, hne]
            . exact ⟨rfl, rfl⟩
      case neg =>
        simp [Remote.indicate, hbInd, htimeout, Same]
  | boot id boot =>
    by_cases heq : id = node
    case pos =>
      subst heq
      simpa [Indication.reports, Remote.indicate] using agrees_bootInd hnode s boot earlier
    case neg =>
      simp only [Indication.reports, heq, if_false, List.reverse_nil, List.nil_append]
      exact h.same (same_bootInd (Ne.symm heq) s boot)
  | command id command =>
    exact h.same ⟨rfl, rfl⟩

theorem Agrees.run (h : Agrees node s earlier) (hnode : invalidId node = false)
    (hlocal : node ≠ localId) {history : List Indication}
    (hvalid : ∀ indication ∈ history, indication.Valid localId)
    : Agrees node (history.foldl (Remote.indicate localId) s)
      ((reports node history).reverse ++ earlier) := by
  induction history generalizing s earlier with
  | nil => exact h
  | cons indication rest ih =>
    have hfirst := h.indicate hnode hlocal (hvalid indication List.mem_cons_self)
    have hrest := ih hfirst fun later hmem => hvalid later (List.mem_cons_of_mem _ hmem)
    simpa [reports, List.reverse_append, List.append_assoc] using hrest

theorem lastState_ne : ∀ {earlier : List Report} {state : BitVec 8},
    (∀ st, .state st ∈ earlier → st ≠ unavailable) → lastState earlier = some state →
      state ≠ unavailable
  | [], _, _, h => by cases h
  | .state st :: _, _, hstates, h => by
    cases h
    exact hstates st List.mem_cons_self
  | .boot boot :: _, _, _, h => by
    cases h
    exact untoggled_ne boot.st
  | .timeout :: earlier, _, hstates, h =>
    lastState_ne (fun st hmem => hstates st (List.mem_cons_of_mem _ hmem)) h
  | .resolved :: earlier, _, hstates, h =>
    lastState_ne (fun st hmem => hstates st (List.mem_cons_of_mem _ hmem)) h

theorem state_of_mem_reports {history : List Indication} {state : BitVec 8}
    (h : .state state ∈ reports node history) : state ≠ unavailable := by
  obtain ⟨indication, _, hmem⟩ := List.mem_flatMap.mp h
  cases indication with
  | state id st nested booting =>
    simp only [Indication.reports] at hmem
    split at hmem
    . have hstate : state = untoggled st := by simpa using hmem
      rw [hstate]
      exact untoggled_ne st
    . cases hmem
  | hb id hbState timeout =>
    simp only [Indication.reports] at hmem
    split at hmem
    . cases hbState <;> simp at hmem
    . cases hmem
  | boot id boot =>
    simp only [Indication.reports] at hmem
    split at hmem <;> simp at hmem
  | command id command => cases hmem

/-! ### The gate -/

theorem setSuspended_setSuspended (gate : Gate) (id : Nat) (suspended resetPending suspended' resetPending' : Bool)
    : (gate.setSuspended id suspended resetPending).setSuspended id suspended' resetPending'
      = gate.setSuspended id suspended' resetPending' := by
  unfold Gate.setSuspended
  split
  . rfl
  . simp only [Gate.mk.injEq]
    constructor <;> . funext other; split <;> simp_all

/-- What a Boot-up does to the gate does not depend on the flags it finds. -/
theorem onNmtState_bootup {id : Nat} (hid : invalidId id = false) (gate : Gate) (booting : Bool)
    : gate.onNmtState id stBootup booting = gate.setSuspended id booting booting := by
  have hvalid : ¬(id = 0 ∨ id > numNodes) := by simpa [invalidId] using hid
  cases booting <;> simp [Gate.onNmtState, hvalid]

theorem gate_bootInd (s : Snapshots) (id : Nat) (boot : Boot)
    : (bootInd s id boot).gate = s.gate.apply (.bootComplete id (untoggled boot.st).toNat) := by
  unfold bootInd
  split
  next hid =>
    have hinvalid : id = 0 ∨ id > numNodes := by simpa [invalidId] using hid
    simp [Gate.apply, Gate.onBootComplete, hinvalid]
  next => rfl

theorem gate_nested (s : Snapshots) (id : Nat) (boots : List Boot)
    : (boots.foldl (fun s boot => bootInd s id boot) s).gate
      = s.gate.run (boots.map fun boot => .bootComplete id (untoggled boot.st).toNat) := by
  induction boots generalizing s with
  | nil => rfl
  | cons boot rest ih => exact (ih _).trans (congrArg (Gate.run · _) (gate_bootInd s id boot))

/-- A boot completion hides what the gate was before it. -/
theorem run_nested_setSuspended {id : Nat} (hid : invalidId id = false) (gate : Gate)
    (suspended resetPending : Bool) {boots : List Boot} (hboots : boots ≠ [])
    : (gate.setSuspended id suspended resetPending).run
        (boots.map fun boot => .bootComplete id (untoggled boot.st).toNat)
      = gate.run (boots.map fun boot => .bootComplete id (untoggled boot.st).toNat) := by
  have hvalid : ¬(id = 0 ∨ id > numNodes) := by simpa [invalidId] using hid
  cases boots with
  | nil => exact absurd rfl hboots
  | cons boot rest =>
    simp only [List.map_cons, Gate.run, List.foldl_cons, Gate.apply, Gate.onBootComplete, hvalid,
      if_false, setSuspended_setSuspended]

theorem gate_bootup {id : Nat} (hid : invalidId id = false) (hlocal : id ≠ localId) {st : BitVec 8}
    (hst : (untoggled st).toNat = stBootup) (s : Snapshots) (nested : List Boot) (booting : Bool)
    : (stateInd s localId id st nested booting).gate
      = s.gate.run ((Indication.state id st nested booting).gateEvents localId) := by
  have hbefore : beforeState s localId id (untoggled st)
      = { s with
          remoteBootResult := Function.update s.remoteBootResult id 0
          gate := s.gate.setSuspended id true true } := by
    simp [beforeState, hid, hlocal, hst]
  have hevents : s.gate.run ((Indication.state id st nested booting).gateEvents localId)
      = (s.gate.setSuspended id booting booting).run
        (nested.map fun boot => .bootComplete id (untoggled boot.st).toNat) := by
    simp only [Indication.gateEvents, hlocal, if_false, Gate.run, List.foldl_cons, Gate.apply, hst,
      onNmtState_bootup hid]
  rw [hevents, stateInd, hbefore]
  by_cases hnested : nested = []
  case pos =>
    subst hnested
    simp [afterState, hid, hlocal, hst, onNmtState_bootup hid, setSuspended_setSuspended, Gate.run]
  case neg =>
    rw [afterState_nested hid hlocal hst _ hnested, gate_nested,
      run_nested_setSuspended hid _ _ _ hnested, run_nested_setSuspended hid _ _ _ hnested]

theorem gate_state {id : Nat} {st : BitVec 8} {nested : List Boot} {booting : Bool}
    (hvalid : (Indication.state id st nested booting).Valid localId) (s : Snapshots)
    : (stateInd s localId id st nested booting).gate
      = s.gate.run ((Indication.state id st nested booting).gateEvents localId) := by
  by_cases hst : !invalidId id ∧ id ≠ localId ∧ (untoggled st).toNat = stBootup
  case pos => exact gate_bootup (by simpa using hst.1) hst.2.1 hst.2.2 s nested booting
  case neg =>
    have hnested : nested = [] := Decidable.byContradiction fun hne => hst (hvalid hne)
    subst hnested
    simp only [stateInd, beforeState, hst, if_false, List.foldl_nil, afterState,
      Indication.gateEvents, List.map_nil]
    by_cases hlocal : id = localId
    case pos => simp [hlocal, Gate.run]
    case neg =>
      by_cases hid : invalidId id = true
      case pos =>
        have hinvalid : id = 0 ∨ id > numNodes := by simpa [invalidId] using hid
        simp [hlocal, hid, Gate.run, Gate.apply, Gate.onNmtState, hinvalid]
      case neg =>
        have hne : (untoggled st).toNat ≠ stBootup := fun heq => hst ⟨by simpa using hid, hlocal, heq⟩
        simp [hlocal, hid, hne, Gate.run, Gate.apply]

theorem gate_indicate {indication : Indication} (hvalid : indication.Valid localId) (s : Snapshots)
    : (indicate localId s indication).gate = s.gate.run (indication.gateEvents localId) := by
  cases indication with
  | state id st nested booting => exact gate_state hvalid s
  | hb id state timeout =>
    simp only [indicate, hbInd, Indication.gateEvents, Gate.run, List.foldl_nil]
    split
    . rfl
    . cases state with
      | occurred => rfl
      | resolved =>
        dsimp only
        split <;> rfl
  | boot id boot => exact gate_bootInd s id boot
  | command id command => rfl

theorem gate_run {history : List Indication}
    (hvalid : ∀ indication ∈ history, indication.Valid localId) (s : Snapshots)
    : (history.foldl (indicate localId) s).gate
      = s.gate.run (history.flatMap (·.gateEvents localId)) := by
  induction history generalizing s with
  | nil => rfl
  | cons indication rest ih =>
    rw [List.foldl_cons, ih (fun later hmem => hvalid later (List.mem_cons_of_mem _ hmem)),
      gate_indicate (hvalid indication List.mem_cons_self), List.flatMap_cons, Gate.run_append]

/--
What the application sees of a remote node is what the history of its reports says, and the gate is
the one that the events of the history lead to.
-/
theorem observation_eq_history {history : List Indication}
    (hvalid : ∀ indication ∈ history, indication.Valid localId) (hnode : invalidId node = false)
    (hlocal : node ≠ localId)
    : getRemoteNmtState (run localId history) node = observedState (reports node history)
      ∧ getRemoteBootStatus (run localId history) node = observedBoot (reports node history)
      ∧ (run localId history).gate = Gate.opened.run (history.flatMap (·.gateEvents localId)) := by
  have hagrees : Agrees node (run localId history) ((reports node history).reverse ++ []) :=
    agrees_reset.run hnode hlocal hvalid
  rw [List.append_nil] at hagrees
  refine ⟨?_, ?_, gate_run hvalid .reset⟩
  . simp only [getRemoteNmtState, hnode, hagrees.state, current_statePack, observedState]
    cases htimeout : timedOut (reports node history).reverse with
    | true => simp
    | false =>
      cases hstate : lastState (reports node history).reverse with
      | none => simp
      | some state =>
        have hne := lastState_ne (fun st hmem => state_of_mem_reports (List.mem_reverse.mp hmem)) hstate
        simp [hne]
  . simp only [getRemoteBootStatus, hnode, hagrees.boot, observedBoot]
    cases hboot : lastBoot (reports node history).reverse with
    | none => simp
    | some boot =>
      have hset : bootWord boot &&& bootValid ≠ 0#32 := bootWord_valid boot
      simp [hset, current_bootWord, second_bootWord]

end

/-- A node boots into Stopped within its Boot-up, with the error status `L`. -/
theorem observation_eq_history_nested
    : (∀ indication ∈ [Indication.hb 2 .occurred true, .state 2 0x00#8 [⟨0x04#8, 0x4c#8⟩] false],
        indication.Valid 1)
      ∧ getRemoteNmtState (run 1 [.hb 2 .occurred true, .state 2 0x00#8 [⟨0x04#8, 0x4c#8⟩] false]) 2
        = .ok 0x04#8
      ∧ getRemoteBootStatus (run 1 [.hb 2 .occurred true, .state 2 0x00#8 [⟨0x04#8, 0x4c#8⟩] false]) 2
        = .ok ⟨0x04#8, 0x4c#8⟩ := by
  have hvalid : ∀ indication ∈ [Indication.hb 2 .occurred true,
      .state 2 0x00#8 [⟨0x04#8, 0x4c#8⟩] false], indication.Valid 1 := by
    simp [Indication.Valid, invalidId, numNodes, untoggled, stBootup]
  obtain ⟨hstate, hboot, -⟩ := @observation_eq_history 1 2 _ hvalid (by decide) (by decide)
  exact ⟨hvalid, hstate, hboot⟩

end LelyRtt.Remote
