import LelyRtt.Basic

/-!
This module contains the validation of the custom Client-SDO channels that nodes may select, the
decision of `lely_rtt_master_sdo_start_active` whether a transfer begins, and the proof that exactly
the channels without a conflict pass.
-/

namespace LelyRtt.Channel

/-- `CO_NUM_SDOS` -/
def numSdos : Nat := 128

/-- `CO_SDO_COBID_VALID`; the bit is set if the COB-ID is not valid. -/
def cobidValid : BitVec 32 := 0x80000000#32

/-- `CO_SDO_COBID_FRAME` -/
def cobidFrame : BitVec 32 := 0x20000000#32

/-- `struct co_sdo_par` -/
structure SdoPar where
  n : Nat
  cobidReq : BitVec 32
  cobidRes : BitVec 32
  id : Nat
  deriving DecidableEq, Repr

inductive CsdoState where
  | stopped
  | idle
  | busy
  deriving DecidableEq, Repr

/-- A Client-SDO of the NMT service manager. -/
structure Service where
  par : SdoPar
  state : CsdoState
  deriving DecidableEq, Repr

/-- The NMT service: the node-ID of the Master and its Client-SDOs by their number. -/
structure Nmt where
  id : Nat
  csdo : Nat → Option Service

/-- What the owner reads of the runtime here. -/
structure Runtime where
  masterNmt : Option Nmt
  canNet : Bool
  sdoChannel : Nat → Nat
  sdoClients : Nat → Option CsdoState

/-- `co_nmt_get_csdo` -/
def Nmt.getCsdo (nmt : Nmt) (n : Nat) : Option Service :=
  if n = 0 then none else nmt.csdo n

/-- `co_csdo_is_valid` -/
def csdoIsValid (par : SdoPar) : Bool :=
  par.cobidReq &&& cobidValid = 0 ∧ par.cobidRes &&& cobidValid = 0

/-- `lely_rtt_master_sdo_uses_predefined` -/
def usesPredefined (rt : Runtime) (node : Nat) : Bool :=
  node ≠ 0 ∧ node ≤ numNodes ∧ rt.sdoChannel node = channelPredefined

/-- `lely_rtt_master_sdo_is_predefined_cobid` -/
def isPredefinedCobid (cobid : BitVec 32) (first last : Nat) : Bool :=
  let id := (cobid &&& 0x7ff#32).toNat
  cobid &&& cobidFrame = 0 ∧ id ≥ first ∧ id ≤ last

/-- `lely_rtt_master_sdo_same_can_identity` -/
def sameCanIdentity (lhs rhs : BitVec 32) : Bool :=
  let lhsExtended : Bool := lhs &&& cobidFrame ≠ 0
  let rhsExtended : Bool := rhs &&& cobidFrame ≠ 0
  let mask := if lhsExtended then 0x1fffffff#32 else 0x7ff#32
  lhsExtended = rhsExtended ∧ lhs &&& mask = rhs &&& mask

/-- `lely_rtt_master_sdo_custom_channels_conflict` -/
def customChannelsConflict (lhs rhs : SdoPar) : Bool :=
  sameCanIdentity lhs.cobidReq rhs.cobidReq || sameCanIdentity lhs.cobidReq rhs.cobidRes
    || sameCanIdentity lhs.cobidRes rhs.cobidReq || sameCanIdentity lhs.cobidRes rhs.cobidRes

/-- `lely_rtt_master_sdo_validate_custom_channel` -/
def validateCustomChannel (rt : Runtime) (node number : Nat) : Except RtErr (Nmt × Service) :=
  match rt.masterNmt with
  | none => .error .inval
  | some nmt =>
    if node = 0 ∨ node > numNodes ∨ number = 0 ∨ number > numSdos then
      .error .inval
    else if node = nmt.id then
      .error .inval
    else
      match nmt.getCsdo number with
      | none => .error .inval
      | some sdo =>
        if sdo.par.n < 3 ∨ sdo.par.id ≠ node ∨ sdo.par.cobidReq &&& cobidValid ≠ 0
            ∨ sdo.par.cobidRes &&& cobidValid ≠ 0 then
          .error .inval
        else if isPredefinedCobid sdo.par.cobidReq 0x581 0x5ff
            || isPredefinedCobid sdo.par.cobidReq 0x601 0x67f
            || isPredefinedCobid sdo.par.cobidRes 0x581 0x5ff
            || isPredefinedCobid sdo.par.cobidRes 0x601 0x67f then
          .error .inval
        else
          .ok (nmt, sdo)

/-- The loop of `lely_rtt_master_sdo_validate_custom_channel_set` over the other Client-SDOs. -/
def checkOthers (nmt : Nmt) (number : Nat) (par : SdoPar) : List Nat → RtErr
  | [] => .ok
  | other :: rest =>
    match nmt.getCsdo other with
    | none => checkOthers nmt number par rest
    | some otherSdo =>
      -- every number has its own service, so `other_sdo == sdo` compares numbers
      if other = number ∨ !csdoIsValid otherSdo.par then
        checkOthers nmt number par rest
      else if customChannelsConflict par otherSdo.par then
        .inval
      else
        checkOthers nmt number par rest

/-- `lely_rtt_master_sdo_validate_custom_channel_set` -/
def validateCustomChannelSet (rt : Runtime) (node number : Nat) : Except RtErr Service :=
  match validateCustomChannel rt node number with
  | .error err => .error err
  | .ok (nmt, sdo) =>
    match checkOthers nmt number sdo.par (List.range' 1 numSdos) with
    | .ok => .ok sdo
    | err => .error err

/-- The loop of `lely_rtt_master_sdo_validate_channels` over the nodes. -/
def validateNodes (rt : Runtime) : List Nat → RtErr
  | [] => .ok
  | id :: rest =>
    if rt.sdoChannel id = channelPredefined then
      validateNodes rt rest
    else
      match validateCustomChannelSet rt id (rt.sdoChannel id) with
      | .error err => err
      | .ok _ => validateNodes rt rest

/-- `lely_rtt_master_sdo_validate_channels` -/
def validateChannels (rt : Runtime) : RtErr :=
  if rt.masterNmt.isNone then .inval else validateNodes rt (List.range' 1 numNodes)

/-- The Client-SDO of a transfer. -/
inductive Client where
  | predefined (node : Nat)
  | custom (number : Nat)
  deriving DecidableEq, Repr

/-- How `lely_rtt_master_sdo_start_active` decides. -/
inductive Decision where
  | localError (err : RtErr)
  | begin (client : Client)
  deriving DecidableEq, Repr

/--
`lely_rtt_master_sdo_start_active` up to the request function of Lely. `created` and `started` are the
answers of `co_csdo_create` and `co_csdo_start`.
-/
def startActive (rt : Runtime) (node : Nat) (created started : Bool) : Decision :=
  if usesPredefined rt node then
    if rt.masterNmt.isNone ∨ !rt.canNet then
      .localError .error
    else
      let sdo := match rt.sdoClients node with
        | some state => some state
        | none => if created then some .idle else none
      match sdo with
      | none => .localError .error
      | some .stopped =>
        if started then .begin (.predefined node) else .localError .error
      | some .idle => .begin (.predefined node)
      | some .busy => .localError .busy
  else
    match validateCustomChannelSet rt node (rt.sdoChannel node) with
    | .error err => .localError err
    | .ok sdo =>
      match sdo.state with
      | .stopped => .localError .busy
      | .idle => .begin (.custom (rt.sdoChannel node))
      | .busy => .localError .busy

/-! ### What passes -/

/-- The identity of a COB-ID on the bus: whether the frame is extended, and its identifier. -/
def canIdentity (cobid : BitVec 32) : Bool × BitVec 32 :=
  if cobid &&& cobidFrame = 0 then
    (false, cobid &&& 0x7ff#32)
  else
    (true, cobid &&& 0x1fffffff#32)

/-- The identities that a Client-SDO sends and receives. -/
def SdoPar.identities (par : SdoPar) : List (Bool × BitVec 32) :=
  [canIdentity par.cobidReq, canIdentity par.cobidRes]

/-- Both COB-IDs are valid. -/
def SdoPar.Valid (par : SdoPar) : Prop :=
  par.cobidReq &&& cobidValid = 0 ∧ par.cobidRes &&& cobidValid = 0

/-- The standard identifiers of the predefined connection set. -/
def Predefined (identity : Bool × BitVec 32) : Prop :=
  identity.1 = false ∧ (0x581 ≤ identity.2.toNat ∧ identity.2.toNat ≤ 0x5ff
    ∨ 0x601 ≤ identity.2.toNat ∧ identity.2.toNat ≤ 0x67f)

/-- The Client-SDO of the number can serve the node beside all other ones. -/
structure Nmt.Fits (nmt : Nmt) (node number : Nat) (sdo : Service) : Prop where
  remote : node ≠ nmt.id
  found : nmt.csdo number = some sdo
  entries : 3 ≤ sdo.par.n
  target : sdo.par.id = node
  valid : sdo.par.Valid
  custom : ∀ identity ∈ sdo.par.identities, ¬Predefined identity
  alone : ∀ other, 1 ≤ other → other ≤ numSdos → other ≠ number →
    ∀ otherSdo, nmt.csdo other = some otherSdo → otherSdo.par.Valid →
      List.Disjoint sdo.par.identities otherSdo.par.identities

theorem sameCanIdentity_iff (lhs rhs : BitVec 32)
    : sameCanIdentity lhs rhs ↔ canIdentity lhs = canIdentity rhs := by
  unfold sameCanIdentity canIdentity
  by_cases hl : lhs &&& cobidFrame = 0#32 <;> by_cases hr : rhs &&& cobidFrame = 0#32 <;>
    simp [hl, hr]

theorem customChannelsConflict_iff (lhs rhs : SdoPar)
    : customChannelsConflict lhs rhs = false ↔ List.Disjoint lhs.identities rhs.identities := by
  have hneg (a b : BitVec 32) : sameCanIdentity a b = false ↔ canIdentity a ≠ canIdentity b := by
    rw [← Bool.not_eq_true, sameCanIdentity_iff]
  simp only [customChannelsConflict, Bool.or_eq_false_iff, hneg, SdoPar.identities]
  simp [eq_comm, and_assoc, and_comm, and_left_comm]

theorem isPredefinedCobid_iff (cobid : BitVec 32)
    : (isPredefinedCobid cobid 0x581 0x5ff || isPredefinedCobid cobid 0x601 0x67f) = false
      ↔ ¬Predefined (canIdentity cobid) := by
  unfold isPredefinedCobid Predefined canIdentity
  by_cases h : cobid &&& cobidFrame = 0#32 <;> simp [h]

theorem csdoIsValid_iff (par : SdoPar) : csdoIsValid par ↔ par.Valid := by
  simp [csdoIsValid, SdoPar.Valid]

theorem Nmt.getCsdo_some {nmt : Nmt} {n : Nat} {sdo : Service}
    : nmt.getCsdo n = some sdo ↔ n ≠ 0 ∧ nmt.csdo n = some sdo := by
  unfold getCsdo
  split
  next hzero => simp [hzero]
  next hne => simp [hne]

/-- The loop finds a conflict with another valid Client-SDO if there is one. -/
theorem checkOthers_iff {nmt : Nmt} {number : Nat} {par : SdoPar} {others : List Nat}
    : checkOthers nmt number par others = .ok
      ↔ ∀ other ∈ others, other ≠ number → ∀ otherSdo, nmt.getCsdo other = some otherSdo →
        otherSdo.par.Valid → List.Disjoint par.identities otherSdo.par.identities := by
  induction others with
  | nil => simp [checkOthers]
  | cons other rest ih =>
    rw [List.forall_mem_cons, ← ih, checkOthers]
    split
    next hnone => simp [hnone]
    next otherSdo hsome =>
      split
      next hskip =>
        refine ⟨fun h => ⟨?_, h⟩, fun h => h.2⟩
        intro hne otherSdo' hsome' hvalid
        rw [hsome] at hsome'
        cases hsome'
        cases hskip with
        | inl heq => exact absurd heq hne
        | inr hinvalid => simp [(csdoIsValid_iff _).mpr hvalid] at hinvalid
      next htest =>
        simp only [not_or, Bool.not_eq_true', Bool.not_eq_false] at htest
        obtain ⟨hne, hvalid⟩ := htest
        split
        next hconflict =>
          refine ⟨fun h => (nomatch h), fun h => ?_⟩
          have hdisjoint := h.1 hne otherSdo hsome ((csdoIsValid_iff _).mp hvalid)
          rw [(customChannelsConflict_iff _ _).mpr hdisjoint] at hconflict
          cases hconflict
        next hconflict =>
          refine ⟨fun h => ⟨?_, h⟩, fun h => h.2⟩
          intro _ otherSdo' hsome' _
          rw [hsome] at hsome'
          cases hsome'
          exact (customChannelsConflict_iff _ _).mp (by simpa using hconflict)

theorem predefined_iff (par : SdoPar)
    : (isPredefinedCobid par.cobidReq 0x581 0x5ff || isPredefinedCobid par.cobidReq 0x601 0x67f
        || isPredefinedCobid par.cobidRes 0x581 0x5ff
        || isPredefinedCobid par.cobidRes 0x601 0x67f) = false
      ↔ ∀ identity ∈ par.identities, ¬Predefined identity := by
  have hreq := isPredefinedCobid_iff par.cobidReq
  have hres := isPredefinedCobid_iff par.cobidRes
  simp only [Bool.or_eq_false_iff] at hreq hres
  simp only [Bool.or_eq_false_iff, SdoPar.identities, List.forall_mem_cons, ← hreq, ← hres]
  simp [and_assoc]

theorem validateCustomChannel_iff {rt : Runtime} {nmt : Nmt} {node number : Nat} {sdo : Service}
    : validateCustomChannel rt node number = .ok (nmt, sdo)
      ↔ rt.masterNmt = some nmt ∧ (1 ≤ node ∧ node ≤ numNodes ∧ 1 ≤ number ∧ number ≤ numSdos)
        ∧ node ≠ nmt.id ∧ nmt.csdo number = some sdo
        ∧ (3 ≤ sdo.par.n ∧ sdo.par.id = node ∧ sdo.par.Valid)
        ∧ ∀ identity ∈ sdo.par.identities, ¬Predefined identity := by
  unfold validateCustomChannel
  cases hnmt : rt.masterNmt with
  | none => simp
  | some nmt' =>
    by_cases hrange : node = 0 ∨ node > numNodes ∨ number = 0 ∨ number > numSdos
    case pos =>
      simp only [hrange, if_true]
      refine ⟨fun h => (nomatch h), fun h => ?_⟩
      omega
    case neg =>
      have hbounds : 1 ≤ node ∧ node ≤ numNodes ∧ 1 ≤ number ∧ number ≤ numSdos := by omega
      have hget : nmt'.getCsdo number = nmt'.csdo number := if_neg (by omega)
      simp only [hrange, if_false, hget, Option.some.injEq]
      by_cases hlocal : node = nmt'.id
      case pos =>
        simp only [hlocal, if_true]
        refine ⟨fun h => (nomatch h), ?_⟩
        rintro ⟨rfl, -, hremote, -⟩
        exact absurd rfl hremote
      case neg =>
        simp only [hlocal, if_false]
        cases hsdo : nmt'.csdo number with
        | none =>
          refine ⟨fun h => (nomatch h), ?_⟩
          rintro ⟨rfl, -, -, hfound, -⟩
          simp [hsdo] at hfound
        | some sdo' =>
          by_cases hpar : sdo'.par.n < 3 ∨ sdo'.par.id ≠ node ∨ sdo'.par.cobidReq &&& cobidValid ≠ 0
              ∨ sdo'.par.cobidRes &&& cobidValid ≠ 0
          case pos =>
            simp only [hpar, if_true]
            refine ⟨fun h => (nomatch h), ?_⟩
            rintro ⟨rfl, -, -, hfound, ⟨hentries, htarget, hvalid⟩, -⟩
            rw [hsdo] at hfound
            cases hfound
            obtain ⟨hreq, hres⟩ := hvalid
            rcases hpar with h | h | h | h
            . omega
            . exact absurd htarget h
            . exact absurd hreq h
            . exact absurd hres h
          case neg =>
            simp only [not_or, not_not, Nat.not_lt] at hpar
            obtain ⟨hentries, htarget, hreq, hres⟩ := hpar
            simp only [htarget, hreq, hres, Nat.not_lt.mpr hentries, ne_eq, not_true_eq_false,
              or_self, if_false]
            have hpredefined := predefined_iff sdo'.par
            generalize (isPredefinedCobid sdo'.par.cobidReq 0x581 0x5ff
              || isPredefinedCobid sdo'.par.cobidReq 0x601 0x67f
              || isPredefinedCobid sdo'.par.cobidRes 0x581 0x5ff
              || isPredefinedCobid sdo'.par.cobidRes 0x601 0x67f) = flag at hpredefined ⊢
            cases flag with
            | false =>
              have hcustom := hpredefined.mp rfl
              simp only [Bool.false_eq_true, if_false, Except.ok.injEq, Prod.mk.injEq]
              constructor
              . rintro ⟨rfl, rfl⟩
                exact ⟨rfl, hbounds, hlocal, hsdo, ⟨hentries, htarget, hreq, hres⟩, hcustom⟩
              . rintro ⟨rfl, -, -, hfound, -⟩
                rw [hsdo] at hfound
                exact ⟨rfl, Option.some.inj hfound⟩
            | true =>
              simp only [if_true]
              refine ⟨fun h => (nomatch h), ?_⟩
              rintro ⟨rfl, -, -, hfound, -, hcustom⟩
              rw [hsdo] at hfound
              cases hfound
              exact absurd (hpredefined.mpr hcustom) (by decide)

/-- The channel of one node passes if and only if its Client-SDO fits. -/
theorem validateCustomChannelSet_iff {rt : Runtime} {node number : Nat} {sdo : Service}
    : validateCustomChannelSet rt node number = .ok sdo
      ↔ ∃ nmt, rt.masterNmt = some nmt ∧ (1 ≤ node ∧ node ≤ numNodes ∧ 1 ≤ number ∧ number ≤ numSdos)
        ∧ nmt.Fits node number sdo := by
  constructor
  . intro h
    unfold validateCustomChannelSet at h
    split at h
    next => cases h
    next nmt sdo' hcustom =>
      obtain ⟨hnmt, hbounds, hremote, hfound, ⟨hentries, htarget, hvalid⟩, hpredefined⟩ :=
        validateCustomChannel_iff.mp hcustom
      split at h
      next hothers =>
        cases h
        refine ⟨nmt, hnmt, hbounds, hremote, hfound, hentries, htarget, hvalid, hpredefined, ?_⟩
        intro other hlow hhigh hne otherSdo hother
        exact checkOthers_iff.mp hothers other (List.mem_range'_1.mpr (by omega)) hne otherSdo
          (Nmt.getCsdo_some.mpr ⟨by omega, hother⟩)
      next => cases h
  . rintro ⟨nmt, hnmt, hbounds, hfits⟩
    have hcustom : validateCustomChannel rt node number = .ok (nmt, sdo) :=
      validateCustomChannel_iff.mpr ⟨hnmt, hbounds, hfits.remote, hfits.found,
        ⟨hfits.entries, hfits.target, hfits.valid⟩, hfits.custom⟩
    have hothers : checkOthers nmt number sdo.par (List.range' 1 numSdos) = .ok := by
      refine checkOthers_iff.mpr fun other hmem hne otherSdo hother => ?_
      have hrange := List.mem_range'_1.mp hmem
      exact hfits.alone other hrange.1 (by omega) hne otherSdo (Nmt.getCsdo_some.mp hother).2
    simp only [validateCustomChannelSet, hcustom, hothers]

theorem checkOthers_cases (nmt : Nmt) (number : Nat) (par : SdoPar) (others : List Nat)
    : checkOthers nmt number par others = .ok ∨ checkOthers nmt number par others = .inval := by
  induction others with
  | nil => exact .inl rfl
  | cons other rest ih =>
    rw [checkOthers]
    split
    next => exact ih
    next =>
      split
      next => exact ih
      next =>
        split
        next => exact .inr rfl
        next => exact ih

theorem validateCustomChannel_error {rt : Runtime} {node number : Nat} {err : RtErr}
    (h : validateCustomChannel rt node number = .error err) : err = .inval := by
  unfold validateCustomChannel at h
  repeat' split at h
  all_goals first | (cases h; rfl) | cases h

theorem validateCustomChannelSet_error {rt : Runtime} {node number : Nat} {err : RtErr}
    (h : validateCustomChannelSet rt node number = .error err) : err = .inval := by
  unfold validateCustomChannelSet at h
  split at h
  next heq =>
    cases h
    exact validateCustomChannel_error heq
  next nmt sdo hcustom =>
    split at h
    next => cases h
    next hne =>
      cases h
      exact (checkOthers_cases nmt number sdo.par _).resolve_left hne

theorem validateNodes_iff {rt : Runtime} {nodes : List Nat}
    : validateNodes rt nodes = .ok
      ↔ ∀ node ∈ nodes, rt.sdoChannel node ≠ channelPredefined →
        ∃ sdo, validateCustomChannelSet rt node (rt.sdoChannel node) = .ok sdo := by
  induction nodes with
  | nil => simp [validateNodes]
  | cons node rest ih =>
    rw [List.forall_mem_cons, ← ih, validateNodes]
    split
    next hpredefined => simp [hpredefined]
    next hcustom =>
      split
      next err herr =>
        rw [validateCustomChannelSet_error herr, herr]
        simp [hcustom]
      next sdo hok =>
        rw [hok]
        simp

/-- All channels pass if and only if the Client-SDO of every custom channel fits its node. -/
theorem validateChannels_iff {rt : Runtime}
    : validateChannels rt = .ok
      ↔ ∃ nmt, rt.masterNmt = some nmt ∧ ∀ node, 1 ≤ node → node ≤ numNodes →
        rt.sdoChannel node ≠ channelPredefined →
        rt.sdoChannel node ≤ numSdos ∧ ∃ sdo, nmt.Fits node (rt.sdoChannel node) sdo := by
  unfold validateChannels
  cases hnmt : rt.masterNmt with
  | none => simp
  | some nmt =>
    simp only [Option.isNone_some, Bool.false_eq_true, if_false, validateNodes_iff,
      validateCustomChannelSet_iff, hnmt, Option.some.injEq]
    constructor
    . intro h
      refine ⟨nmt, rfl, fun node hlow hhigh hcustom => ?_⟩
      obtain ⟨sdo, nmt', rfl, hbounds, hfits⟩ :=
        h node (List.mem_range'_1.mpr (by omega)) hcustom
      exact ⟨hbounds.2.2.2, sdo, hfits⟩
    . rintro ⟨nmt', rfl, h⟩ node hmem hcustom
      have hrange := List.mem_range'_1.mp hmem
      obtain ⟨hnumber, sdo, hfits⟩ := h node hrange.1 (by omega) hcustom
      simp only [channelPredefined] at hcustom
      exact ⟨sdo, nmt, rfl, ⟨hrange.1, by omega, by omega, hnumber⟩, hfits⟩

/-- Two nodes whose Client-SDOs fit do not share an identity. -/
theorem Nmt.Fits.disjoint {nmt : Nmt} {node node' number number' : Nat} {sdo sdo' : Service}
    (h : nmt.Fits node number sdo) (h' : nmt.Fits node' number' sdo') (hne : node ≠ node')
    (hlow : 1 ≤ number') (hhigh : number' ≤ numSdos)
    : number ≠ number' ∧ List.Disjoint sdo.par.identities sdo'.par.identities := by
  have hnumber : number ≠ number' := by
    rintro rfl
    have hsame := h.found.symm.trans h'.found
    cases hsame
    exact hne (h.target.symm.trans h'.target)
  exact ⟨hnumber, h.alone number' hlow hhigh hnumber.symm sdo' h'.found h'.valid⟩

/-- A transfer begins on a custom channel only while its Client-SDO fits. -/
theorem fits_of_begin {rt : Runtime} {node number : Nat} {created started : Bool}
    (h : startActive rt node created started = .begin (.custom number))
    : number = rt.sdoChannel node ∧ ∃ nmt sdo, rt.masterNmt = some nmt
      ∧ nmt.Fits node number sdo ∧ sdo.state = .idle := by
  unfold startActive at h
  split at h
  next =>
    split at h
    next => cases h
    next =>
      cases hclient : rt.sdoClients node with
      | none => cases created <;> simp [hclient] at h
      | some state => cases state <;> cases started <;> simp [hclient] at h
  next =>
    split at h
    next => cases h
    next sdo hset =>
      obtain ⟨nmt, hnmt, -, hfits⟩ := validateCustomChannelSet_iff.mp hset
      split at h
      next => cases h
      next hidle =>
        cases h
        exact ⟨rfl, nmt, sdo, hnmt, hfits, hidle⟩
      next => cases h

/--
The validation of the channels is exact. No two selected channels are equal or share an identity, and
whatever was written to the parameters since, a transfer begins only on a channel that fits.
-/
theorem validate_channels_exact {rt : Runtime} (hchannel : ∀ node, rt.sdoChannel node ≤ numSdos)
    : (validateChannels rt = .ok
        ↔ ∃ nmt, rt.masterNmt = some nmt ∧ ∀ node, 1 ≤ node → node ≤ numNodes →
          rt.sdoChannel node ≠ 0 → ∃ sdo, nmt.Fits node (rt.sdoChannel node) sdo)
      ∧ (validateChannels rt = .ok → ∀ nmt, rt.masterNmt = some nmt → ∀ node node',
          1 ≤ node → node ≤ numNodes → 1 ≤ node' → node' ≤ numNodes → node ≠ node' →
          rt.sdoChannel node ≠ 0 → rt.sdoChannel node' ≠ 0 →
          rt.sdoChannel node ≠ rt.sdoChannel node'
          ∧ ∀ sdo sdo', nmt.csdo (rt.sdoChannel node) = some sdo →
            nmt.csdo (rt.sdoChannel node') = some sdo' →
            List.Disjoint sdo.par.identities sdo'.par.identities)
      ∧ ∀ rt' node number created started,
        startActive rt' node created started = .begin (.custom number) →
        number = rt'.sdoChannel node ∧ ∃ nmt sdo, rt'.masterNmt = some nmt
          ∧ nmt.Fits node number sdo ∧ sdo.state = .idle := by
  refine ⟨?_, ?_, fun _ _ _ _ _ h => fits_of_begin h⟩
  . rw [validateChannels_iff]
    simp only [hchannel, true_and, channelPredefined]
  . intro hok nmt hnmt node node' hlow hhigh hlow' hhigh' hne hcustom hcustom'
    obtain ⟨nmt', hnmt', hall⟩ := validateChannels_iff.mp hok
    rw [hnmt] at hnmt'
    cases hnmt'
    obtain ⟨-, sdo, hfits⟩ := hall node hlow hhigh hcustom
    obtain ⟨-, sdo', hfits'⟩ := hall node' hlow' hhigh' hcustom'
    have hdisjoint := hfits.disjoint hfits' hne (by omega) (hchannel node')
    refine ⟨hdisjoint.1, fun other other' hother hother' => ?_⟩
    cases hfits.found.symm.trans hother
    cases hfits'.found.symm.trans hother'
    exact hdisjoint.2

/-- Node 5 uses the Client-SDO 2 beside an unselected one. -/
theorem validate_channels_exact_one
    : validateChannels ⟨some ⟨1, fun n => if n = 2 then some ⟨⟨3, 0x700, 0x680, 5⟩, .idle⟩
        else if n = 4 then some ⟨⟨3, 0x720, 0x6a0, 3⟩, .idle⟩ else none⟩, true,
        fun node => if node = 5 then 2 else 0, fun _ => none⟩ = .ok := by
  refine (validate_channels_exact ?_).1.mpr ⟨_, rfl, ?_⟩
  . intro node
    simp only [numSdos]
    split <;> omega
  . intro node _ _ hcustom
    have hnode : node = 5 := by
      by_contra hne
      exact hcustom (if_neg hne)
    subst hnode
    refine ⟨⟨⟨3, 0x700, 0x680, 5⟩, .idle⟩, ?_⟩
    refine ⟨by decide, rfl, by decide, rfl, ⟨by decide, by decide⟩, ?_, ?_⟩
    . intro identity hmem
      simp only [SdoPar.identities, List.mem_cons, List.not_mem_nil, or_false] at hmem
      rcases hmem with rfl | rfl <;> simp [Predefined, canIdentity, cobidFrame]
    . intro other _ _ hne otherSdo hother _
      have hotherSdo : otherSdo = ⟨⟨3, 0x720, 0x6a0, 3⟩, .idle⟩ := by
        simp only [if_pos trivial] at hne
        simp only [hne, if_false] at hother
        split at hother
        next => exact (Option.some.inj hother).symm
        next => cases hother
      subst hotherSdo
      simp [List.Disjoint, SdoPar.identities, canIdentity, cobidFrame]

end LelyRtt.Channel
