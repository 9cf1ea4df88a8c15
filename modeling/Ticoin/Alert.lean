import Ticoin.Util
import Ticoin.WireFormat

/-!
# alert.cpp : alerts and the key-compromise alert

An alert is a signed message. `ProcessAlert` drops the alerts in `mapAlerts` that the new
one cancels or that expired, and then adds it if no alert left cancels it. The number
`INT_MAX` is reserved for the case that the alert key is compromised : such an alert must
have a fixed format, with which it cancels every alert with another number.

It stays in `mapAlerts` as long as no later alert drops it before it is looked at
(`Harmless`), and then no alert with another number is accepted ; a later alert that drops
it ends this for good reason or bad (`processAlert_latch`). Alerts can do so with `nCancel`
or `setCancel`, and every alert in effect does once the clock reaches `INT_MAX`.

Alerts are dropped before the new one is found to be cancelled itself. A rejected alert so
can take another one with it, and `rejectKeeps_iff` says when it does.
-/

namespace Ticoin

open Codec

/-! ## The wire format of alerts -/

structure CUnsignedAlert where
  nVersion : Int32
  /-- when newer nodes stop relaying to newer nodes -/
  nRelayUntil : Int64
  nExpiration : Int64
  nID : Int32
  nCancel : Int32
  /-- a set, by its elements as they are read -/
  setCancel : List Int32
  /-- lowest version inclusive -/
  nMinVer : Int32
  /-- highest version inclusive -/
  nMaxVer : Int32
  /-- a set, by its elements as they are read ; empty matches all -/
  setSubVer : List Bytes
  nPriority : Int32
  strComment : Bytes
  strStatusBar : Bytes
  strReserved : Bytes
  deriving DecidableEq, Repr

/-- An alert is a combination of a serialized `CUnsignedAlert` and a signature. -/
structure CAlert extends CUnsignedAlert where
  vchMsg : Bytes
  vchSig : Bytes
  deriving DecidableEq, Repr

/-- `LimitedString<Limit>::Unserialize`. -/
def unserializeLimitedString (limit : ℕ) : Reader Bytes := do
  let size ← readCompactSize
  failIf "String length limit exceeded" (size > limit)
  readBytes endOfData size

def CUnsignedAlert.serialize (alert : CUnsignedAlert) : Bytes :=
  serializeInt32 alert.nVersion ++ (serializeInt64 alert.nRelayUntil ++
    (serializeInt64 alert.nExpiration ++ (serializeInt32 alert.nID ++ (serializeInt32 alert.nCancel ++
      (serializeVector serializeInt32 alert.setCancel ++ (serializeInt32 alert.nMinVer ++
        (serializeInt32 alert.nMaxVer ++ (serializeVector serializeBytes alert.setSubVer ++
          (serializeInt32 alert.nPriority ++ (serializeBytes alert.strComment ++
            (serializeBytes alert.strStatusBar ++ serializeBytes alert.strReserved)))))))))))

def CUnsignedAlert.unserialize : Reader CUnsignedAlert := do
  let nVersion ← unserializeInt32
  let nRelayUntil ← unserializeInt64
  let nExpiration ← unserializeInt64
  let nID ← unserializeInt32
  let nCancel ← unserializeInt32
  let setCancel ← unserializeVector unserializeInt32
  let nMinVer ← unserializeInt32
  let nMaxVer ← unserializeInt32
  let setSubVer ← unserializeVector unserializeBytes
  let nPriority ← unserializeInt32
  let strComment ← unserializeLimitedString 65536
  let strStatusBar ← unserializeLimitedString 256
  let strReserved ← unserializeLimitedString 256
  return ⟨nVersion, nRelayUntil, nExpiration, nID, nCancel, setCancel, nMinVer, nMaxVer, setSubVer,
    nPriority, strComment, strStatusBar, strReserved⟩

theorem reads_limitedString {limit : ℕ} {s : Bytes} (h : s.length ≤ limit)
    (hmax : s.length ≤ MAX_SIZE) : Reads (unserializeLimitedString limit) (serializeBytes s) s :=
  (reads_compactSize hmax).bind (Reads.bind (reads_failIf _ h.not_gt) (reads_readBytes endOfData s))

/-- An alert within the limits is read back. -/
theorem CUnsignedAlert.reads {alert : CUnsignedAlert} (hcancel : alert.setCancel.length ≤ MAX_SIZE)
    (hsub : alert.setSubVer.length ≤ MAX_SIZE) (hver : ∀ s ∈ alert.setSubVer, s.length ≤ MAX_SIZE)
    (hcomment : alert.strComment.length ≤ 65536) (hbar : alert.strStatusBar.length ≤ 256)
    (hres : alert.strReserved.length ≤ 256) :
    Reads CUnsignedAlert.unserialize alert.serialize alert := by
  have hmax : (65536 : ℕ) ≤ MAX_SIZE := by decide
  have hmax' : (256 : ℕ) ≤ MAX_SIZE := by decide
  exact (reads_int32 _).bind ((reads_int64 _).bind ((reads_int64 _).bind ((reads_int32 _).bind
    ((reads_int32 _).bind ((reads_vector (fun n _ => reads_int32 n) hcancel).bind
      ((reads_int32 _).bind ((reads_int32 _).bind
        ((reads_vector (fun s hs => reads_bytes (hver s hs)) hsub).bind ((reads_int32 _).bind
          ((reads_limitedString hcomment (hcomment.trans hmax)).bind
            ((reads_limitedString hbar (hbar.trans hmax')).bind
              ((reads_limitedString hres (hres.trans hmax')).map _))))))))))))

/-! ## Alerts in effect -/

namespace CUnsignedAlert

def isInEffect (nAdjustedTime : ℤ) (alert : CUnsignedAlert) : Bool :=
  nAdjustedTime < alert.nExpiration.toInt

def cancels (nAdjustedTime : ℤ) (alert other : CUnsignedAlert) : Bool :=
  alert.isInEffect nAdjustedTime &&
    (decide (other.nID ≤ alert.nCancel) || alert.setCancel.contains other.nID)

def maxInt : Int32 := Int32.maxValue

/-- The format an alert must have if the alert key is compromised. -/
def isKeyCompromised (alert : CUnsignedAlert) : Bool :=
  alert.nExpiration.toInt == maxInt.toInt && alert.nCancel == maxInt - 1 && alert.nMinVer == 0 &&
    alert.nMaxVer == maxInt && alert.setSubVer.isEmpty && alert.nPriority == maxInt &&
    alert.strStatusBar == asciiBytes "URGENT: Alert key compromised, upgrade required"

end CUnsignedAlert

open CUnsignedAlert (maxInt)

/-! ## ProcessAlert -/

abbrev MapAlerts := Std.ExtTreeMap UInt256 CAlert

variable (H : Bytes → UInt256) (verify : UInt256 → Bytes → Bool)

/-- `CheckSignature`, which reads the fields of the alert from the message : `none` if the
signature is wrong, and the text of the exception if the message cannot be read. -/
def CAlert.checkSignature (alert : CAlert) : Except String (Option CAlert) :=
  if !verify (H alert.vchMsg) alert.vchSig then .ok none
  else
    match CUnsignedAlert.unserialize alert.vchMsg with
    | .error e => .error e
    | .ok (fields, _) => .ok (some ⟨fields, alert.vchMsg, alert.vchSig⟩)

/-- The loop that drops the alerts that are cancelled or expired. -/
def dropCancelled (nAdjustedTime : ℤ) (alert : CAlert) (mapAlerts : MapAlerts) : MapAlerts :=
  mapAlerts.filter fun _ other =>
    !alert.cancels nAdjustedTime other.toCUnsignedAlert && other.isInEffect nAdjustedTime

/-- Whether an alert there is cancels the new one. -/
def isCancelled (nAdjustedTime : ℤ) (alert : CAlert) (mapAlerts : MapAlerts) : Bool :=
  mapAlerts.toList.any fun item => item.2.cancels nAdjustedTime alert.toCUnsignedAlert

/-- `ProcessAlert` once the fields are read. -/
def acceptAlert (nAdjustedTime : ℤ) (alert : CAlert) (mapAlerts : MapAlerts) : Bool × MapAlerts :=
  if !alert.isInEffect nAdjustedTime then (false, mapAlerts)
  else if alert.nID == maxInt && !alert.isKeyCompromised then (false, mapAlerts)
  else
    let mapAlerts := dropCancelled nAdjustedTime alert mapAlerts
    if isCancelled nAdjustedTime alert mapAlerts then (false, mapAlerts)
    else (true, mapAlerts.insertIfNew (H alert.vchMsg) alert)

/-- `ProcessAlert`. -/
def CAlert.processAlert (nAdjustedTime : ℤ) (alert : CAlert) (mapAlerts : MapAlerts) :
    Except String (Bool × MapAlerts) :=
  match alert.checkSignature H verify with
  | .error e => .error e
  | .ok none => .ok (false, mapAlerts)
  | .ok (some alert) => .ok (acceptAlert H nAdjustedTime alert mapAlerts)

/-- A call at some time : whether the alert was accepted, and `mapAlerts` after it. -/
def alertStep (mapAlerts : MapAlerts) (call : ℤ × CAlert) : Bool × MapAlerts :=
  match call.2.processAlert H verify call.1 mapAlerts with
  | .error _ => (false, mapAlerts)
  | .ok r => r

/-- Calls one after the other. -/
def alertRun : List (ℤ × CAlert) → MapAlerts → MapAlerts
  | [], mapAlerts => mapAlerts
  | call :: calls, mapAlerts => alertRun calls (alertStep H verify mapAlerts call).2

/-! ## What a call does to the alerts -/

variable {H verify} {nAdjustedTime : ℤ} {alert : CAlert} {m : MapAlerts}

theorem le_maxInt_sub_one {n : Int32} (h : n ≠ maxInt) : n ≤ maxInt - 1 := by
  have hlt := n.toInt_lt
  have hne : n.toInt ≠ (maxInt : Int32).toInt := fun heq => h (Int32.toInt_inj.mp heq)
  have hmax : (maxInt : Int32).toInt = 2147483647 := rfl
  have hpred : (maxInt - 1 : Int32).toInt = 2147483646 := rfl
  rw [Int32.le_iff_toInt_le, hpred]
  omega

theorem maxInt_le_iff {n : Int32} : maxInt ≤ n ↔ n = maxInt := by
  have hlt := n.toInt_lt
  have hmax : (maxInt : Int32).toInt = 2147483647 := rfl
  rw [Int32.le_iff_toInt_le, ← Int32.toInt_inj, hmax]
  omega

theorem getElem?_dropCancelled {h : UInt256} {x : CAlert} :
    (dropCancelled nAdjustedTime alert m)[h]? = some x ↔
      m[h]? = some x ∧ alert.cancels nAdjustedTime x.toCUnsignedAlert = false ∧
        x.isInEffect nAdjustedTime = true := by
  rw [dropCancelled, Std.ExtTreeMap.getElem?_filter', Option.filter_eq_some_iff]
  simp

theorem isCancelled_iff : isCancelled nAdjustedTime alert m = true ↔
    ∃ (h : UInt256) (x : CAlert), m[h]? = some x ∧
      x.cancels nAdjustedTime alert.toCUnsignedAlert = true := by
  rw [isCancelled, List.any_eq_true]
  constructor
  · rintro ⟨⟨h, x⟩, hmem, hx⟩
    exact ⟨h, x, Std.ExtTreeMap.mem_toList_iff_getElem?_eq_some.mp hmem, hx⟩
  · rintro ⟨h, x, hget, hx⟩
    exact ⟨⟨h, x⟩, Std.ExtTreeMap.mem_toList_iff_getElem?_eq_some.mpr hget, hx⟩

/-- An alert that the key is compromised is there. -/
def Latched (m : MapAlerts) : Prop :=
  ∃ (h : UInt256) (x : CAlert), m[h]? = some x ∧ x.nID = maxInt

/-- Alerts with the reserved number have the format it asks for. -/
def Reserved (m : MapAlerts) : Prop :=
  ∀ (h : UInt256) (x : CAlert), m[h]? = some x → x.nID = maxInt → x.isKeyCompromised = true

/-- An alert does not drop those with the reserved number. -/
def CAlert.Spares (nAdjustedTime : ℤ) (alert : CAlert) : Prop :=
  nAdjustedTime < maxInt.toInt ∧ alert.nCancel ≠ maxInt ∧ maxInt ∉ alert.setCancel

theorem isKeyCompromised_iff {x : CUnsignedAlert} (h : x.isKeyCompromised = true) :
    x.nExpiration.toInt = maxInt.toInt ∧ x.nCancel = maxInt - 1 := by
  simp only [CUnsignedAlert.isKeyCompromised, Bool.and_eq_true, beq_iff_eq] at h
  exact ⟨h.1.1.1.1.1.1, h.1.1.1.1.1.2⟩

/-- An alert in effect drops an alert with the reserved number unless it spares it. -/
theorem dropped_iff {x : CAlert} (hx : x.nID = maxInt) (hformat : x.isKeyCompromised = true)
    (heffect : alert.isInEffect nAdjustedTime = true) :
    (alert.cancels nAdjustedTime x.toCUnsignedAlert = false ∧ x.isInEffect nAdjustedTime = true) ↔
      alert.Spares nAdjustedTime := by
  rw [CUnsignedAlert.cancels, heffect, Bool.true_and, hx]
  simp only [Bool.or_eq_false_iff, decide_eq_false_iff_not, maxInt_le_iff, CUnsignedAlert.isInEffect,
    (isKeyCompromised_iff hformat).1, decide_eq_true_eq, CAlert.Spares, List.contains_eq_mem]
  tauto

variable (H nAdjustedTime alert m) in
/-- A call does nothing with an alert out of effect, or of the reserved number in a wrong
format ; otherwise it drops what the alert cancels, and adds it if nothing left cancels it. -/
theorem acceptAlert_cases :
    (acceptAlert H nAdjustedTime alert m = (false, m) ∧
      (alert.isInEffect nAdjustedTime = false ∨
        alert.nID = maxInt ∧ alert.isKeyCompromised = false)) ∨
    (alert.isInEffect nAdjustedTime = true ∧ (alert.nID = maxInt → alert.isKeyCompromised = true) ∧
      ((isCancelled nAdjustedTime alert (dropCancelled nAdjustedTime alert m) = true ∧
          acceptAlert H nAdjustedTime alert m = (false, dropCancelled nAdjustedTime alert m)) ∨
        (isCancelled nAdjustedTime alert (dropCancelled nAdjustedTime alert m) = false ∧
          acceptAlert H nAdjustedTime alert m =
            (true, (dropCancelled nAdjustedTime alert m).insertIfNew (H alert.vchMsg) alert)))) := by
  cases heffect : alert.isInEffect nAdjustedTime with
  | false => exact .inl ⟨by simp [acceptAlert, heffect], .inl rfl⟩
  | true =>
    by_cases hformat : (alert.nID == maxInt && !alert.isKeyCompromised) = true
    · refine .inl ⟨by simp [acceptAlert, heffect, hformat], .inr ?_⟩
      have hboth := Bool.and_eq_true_iff.mp hformat
      exact ⟨beq_iff_eq.mp hboth.1, (Bool.not_eq_true' _).mp hboth.2⟩
    · refine .inr ⟨rfl, fun hid => by simpa [hid] using hformat, ?_⟩
      rw [acceptAlert, heffect, Bool.not_true, if_neg Bool.false_ne_true, if_neg hformat]
      dsimp only
      cases isCancelled nAdjustedTime alert (dropCancelled nAdjustedTime alert m) with
      | true => exact .inl ⟨rfl, rfl⟩
      | false => exact .inr ⟨rfl, rfl⟩

theorem acceptAlert_reserved (hm : Reserved m) : Reserved (acceptAlert H nAdjustedTime alert m).2 := by
  have hdrop : Reserved (dropCancelled nAdjustedTime alert m) := fun h x hx =>
    hm h x (getElem?_dropCancelled.mp hx).1
  obtain ⟨heq, -⟩ | ⟨-, hformat, ⟨-, heq⟩ | ⟨-, heq⟩⟩ := acceptAlert_cases H nAdjustedTime alert m <;>
    rw [heq]
  · exact hm
  · exact hdrop
  · intro h x hx hid
    rw [Std.ExtTreeMap.getElem?_insertIfNew] at hx
    split at hx
    · cases hx
      exact hformat hid
    · exact hdrop h x hx hid

/-- What an alert with the reserved number does not drop has this number too. -/
theorem nID_of_dropCancelled (heffect : alert.isInEffect nAdjustedTime = true)
    (hformat : alert.isKeyCompromised = true)
    {h : UInt256} {x : CAlert} (hx : (dropCancelled nAdjustedTime alert m)[h]? = some x) :
    x.nID = maxInt := by
  by_contra hne
  have hcancels := (getElem?_dropCancelled.mp hx).2.1
  rw [CUnsignedAlert.cancels, heffect, (isKeyCompromised_iff hformat).2] at hcancels
  simp [le_maxInt_sub_one hne] at hcancels

/-- After an alert with the reserved number was added, it or another one with this number is
in its place. -/
theorem latched_insertIfNew (hid : alert.nID = maxInt)
    (heffect : alert.isInEffect nAdjustedTime = true) (hformat : alert.isKeyCompromised = true) :
    Latched ((dropCancelled nAdjustedTime alert m).insertIfNew (H alert.vchMsg) alert) := by
  have hget := Std.ExtTreeMap.getElem?_insertIfNew (t := dropCancelled nAdjustedTime alert m)
    (k := H alert.vchMsg) (a := H alert.vchMsg) (v := alert)
  by_cases hmem : H alert.vchMsg ∈ dropCancelled nAdjustedTime alert m
  · obtain ⟨y, hy⟩ := Option.isSome_iff_exists.mp (Std.ExtTreeMap.mem_iff_isSome_getElem?.mp hmem)
    rw [if_neg fun h => h.2 hmem, hy] at hget
    exact ⟨_, y, hget, nID_of_dropCancelled heffect hformat hy⟩
  · rw [if_pos ⟨Std.ReflCmp.compare_self, hmem⟩] at hget
    exact ⟨_, alert, hget, hid⟩

theorem acceptAlert_latched (hid : alert.nID = maxInt)
    (hacc : (acceptAlert H nAdjustedTime alert m).1 = true) :
    Latched (acceptAlert H nAdjustedTime alert m).2 := by
  obtain ⟨heq, -⟩ | ⟨heffect, hformat, ⟨-, heq⟩ | ⟨-, heq⟩⟩ :=
    acceptAlert_cases H nAdjustedTime alert m <;> rw [heq] at hacc ⊢
  · cases hacc
  · cases hacc
  · exact latched_insertIfNew hid heffect (hformat hid)

/-- The latch holds over a call if and only if the alert, when it is in effect and has
another number, spares those with the reserved number ; and then it is not accepted. -/
theorem acceptAlert_latched_iff (hm : Reserved m) (hlatch : Latched m) :
    (Latched (acceptAlert H nAdjustedTime alert m).2 ∧
      ((acceptAlert H nAdjustedTime alert m).1 = true → alert.nID = maxInt)) ↔
    (alert.isInEffect nAdjustedTime = true → alert.nID ≠ maxInt → alert.Spares nAdjustedTime) := by
  obtain ⟨k, x, hx, hxid⟩ := hlatch
  have hxformat := hm k x hx hxid
  constructor
  · rintro ⟨⟨h', y, hy, hyid⟩, -⟩ heffect hne
    refine (dropped_iff hyid (acceptAlert_reserved hm h' y hy hyid) heffect).mp ?_
    obtain ⟨-, hcase⟩ | ⟨-, -, ⟨-, heq⟩ | ⟨-, heq⟩⟩ := acceptAlert_cases H nAdjustedTime alert m
    · rcases hcase with hcase | hcase
      · rw [heffect] at hcase
        cases hcase
      · exact absurd hcase.1 hne
    · rw [heq] at hy
      exact (getElem?_dropCancelled.mp hy).2
    · rw [heq, Std.ExtTreeMap.getElem?_insertIfNew] at hy
      split at hy
      · cases hy
        exact absurd hyid hne
      · exact (getElem?_dropCancelled.mp hy).2
  · intro hspares
    obtain ⟨heq, -⟩ | ⟨heffect, hformat, hcase⟩ := acceptAlert_cases H nAdjustedTime alert m
    · rw [heq]
      exact ⟨⟨k, x, hx, hxid⟩, nofun⟩
    by_cases hid : alert.nID = maxInt
    · refine ⟨?_, fun _ => hid⟩
      rcases hcase with ⟨hcancelled, heq⟩ | ⟨-, heq⟩ <;> rw [heq]
      · obtain ⟨h', y, hy, -⟩ := isCancelled_iff.mp hcancelled
        exact ⟨h', y, hy, nID_of_dropCancelled heffect (hformat hid) hy⟩
      · exact latched_insertIfNew hid heffect (hformat hid)
    · -- the alert with the reserved number is still there, and cancels the new one
      have hkept := getElem?_dropCancelled.mpr
        ⟨hx, (dropped_iff hxid hxformat heffect).mpr (hspares heffect hid)⟩
      have hcancelled : isCancelled nAdjustedTime alert (dropCancelled nAdjustedTime alert m) = true := by
        refine isCancelled_iff.mpr ⟨k, x, hkept, ?_⟩
        rw [CUnsignedAlert.cancels, (getElem?_dropCancelled.mp hkept).2.2,
          (isKeyCompromised_iff hxformat).2]
        simp [le_maxInt_sub_one hid]
      rcases hcase with ⟨-, heq⟩ | ⟨hnot, -⟩
      · rw [heq]
        exact ⟨⟨k, x, hkept, hxid⟩, nofun⟩
      · rw [hcancelled] at hnot
        cases hnot

/-! ## The latch over runs of calls -/

variable (H verify) in
/-- A call after which the latch holds if it held before. -/
def Harmless (call : ℤ × CAlert) : Prop :=
  ∀ alert, call.2.checkSignature H verify = .ok (some alert) → alert.isInEffect call.1 = true →
    alert.nID ≠ maxInt → alert.Spares call.1

theorem alertStep_reserved {call : ℤ × CAlert} (hm : Reserved m) :
    Reserved (alertStep H verify m call).2 := by
  rw [alertStep, CAlert.processAlert]
  cases call.2.checkSignature H verify with
  | error e => exact hm
  | ok r =>
    cases r with
    | none => exact hm
    | some alert => exact acceptAlert_reserved hm

theorem alertRun_reserved : ∀ (calls : List (ℤ × CAlert)) {m : MapAlerts}, Reserved m →
    Reserved (alertRun H verify calls m)
  | [], _, hm => hm
  | _ :: calls, _, hm => alertRun_reserved calls (alertStep_reserved hm)

variable (H verify) in
/-- After a call the latch holds, and an accepted alert has the reserved number. -/
def LatchKept (m : MapAlerts) (call : ℤ × CAlert) : Prop :=
  Latched (alertStep H verify m call).2 ∧ ((alertStep H verify m call).1 = true →
    ∀ alert, call.2.checkSignature H verify = .ok (some alert) → alert.nID = maxInt)

theorem latchKept_iff {call : ℤ × CAlert} (hm : Reserved m) (hlatch : Latched m) :
    LatchKept H verify m call ↔ Harmless H verify call := by
  rw [LatchKept, Harmless, alertStep, CAlert.processAlert]
  cases hsig : call.2.checkSignature H verify with
  | error e => exact ⟨fun _ => nofun, fun _ => ⟨hlatch, nofun⟩⟩
  | ok r =>
    cases r with
    | none => exact ⟨fun _ => nofun, fun _ => ⟨hlatch, nofun⟩⟩
    | some alert =>
      simp only [Except.ok.injEq, Option.some.injEq, forall_eq']
      exact acceptAlert_latched_iff hm hlatch

/-- Once an alert with the reserved number was accepted, the latch holds after each of any
later calls if and only if all these calls are harmless. -/
theorem processAlert_latch (before after : List (ℤ × CAlert)) (call : ℤ × CAlert) (alert : CAlert)
    (hsig : call.2.checkSignature H verify = .ok (some alert)) (hid : alert.nID = maxInt)
    (hacc : (alertStep H verify (alertRun H verify before ∅) call).1 = true) :
    (∀ calls next rest, after = calls ++ next :: rest →
      LatchKept H verify (alertRun H verify calls
        (alertStep H verify (alertRun H verify before ∅) call).2) next) ↔
    ∀ next ∈ after, Harmless H verify next := by
  have hbefore : Reserved (alertRun H verify before ∅) :=
    alertRun_reserved before fun h x hx => by simp at hx
  have hstep : alertStep H verify (alertRun H verify before ∅) call =
      acceptAlert H call.1 alert (alertRun H verify before ∅) := by
    rw [alertStep, CAlert.processAlert, hsig]
  rw [hstep] at hacc ⊢
  have hlatch := acceptAlert_latched hid hacc
  have hres : Reserved (acceptAlert H call.1 alert (alertRun H verify before ∅)).2 :=
    acceptAlert_reserved hbefore
  generalize (acceptAlert H call.1 alert (alertRun H verify before ∅)).2 = m at hlatch hres
  clear hacc hstep
  induction after generalizing m with
  | nil => exact ⟨fun _ => nofun, fun _ calls next rest h => by simp at h⟩
  | cons next after ih =>
    have hnext : LatchKept H verify m next ↔ Harmless H verify next := latchKept_iff hres hlatch
    rw [List.forall_mem_cons]
    constructor
    · intro h
      have hkept := h [] next after rfl
      refine ⟨hnext.mp hkept, (ih _ hkept.1 (alertStep_reserved hres)).mp ?_⟩
      exact fun calls x rest heq => h (next :: calls) x rest (by rw [heq]; rfl)
    · rintro ⟨hharmless, hrest⟩ calls x rest heq
      have hkept := hnext.mpr hharmless
      cases calls with
      | nil =>
        cases heq
        exact hkept
      | cons c calls =>
        cases heq
        exact (ih _ hkept.1 (alertStep_reserved hres)).mpr hrest calls x rest rfl

/-- A signed alert, with its fields as the message has them. -/
def CUnsignedAlert.signed (fields : CUnsignedAlert) (vchSig : Bytes) : CAlert :=
  ⟨fields, fields.serialize, vchSig⟩

/-- The alert that the key is compromised, in the format it must have. -/
def compromisedAlert : CUnsignedAlert :=
  ⟨1, maxInt.toInt64, maxInt.toInt64, maxInt, maxInt - 1, [], 0, maxInt, [], maxInt, [],
    asciiBytes "URGENT: Alert key compromised, upgrade required", []⟩

/-- A later alert, whose number is small and which cancels every number there is. -/
def overridingAlert : CUnsignedAlert :=
  ⟨1, 1000, 1000, 5, maxInt, [], 0, maxInt, [], 100, [], asciiBytes "all is well", []⟩

/-- A hash for the samples, the length of the message. -/
def lengthHash (bs : Bytes) : UInt256 := BitVec.ofNat 256 bs.length

/-- With any signature good, the fields of a signed alert are those of the message. -/
theorem alertStep_signed {fields : CUnsignedAlert} {vchSig : Bytes}
    (hfields : Reads CUnsignedAlert.unserialize fields.serialize fields) :
    alertStep H (fun _ _ => true) m (nAdjustedTime, fields.signed vchSig) =
      acceptAlert H nAdjustedTime (fields.signed vchSig) m := by
  have hread := hfields []
  rw [List.append_nil] at hread
  rw [alertStep, CAlert.processAlert, CAlert.checkSignature, Bool.not_true,
    if_neg Bool.false_ne_true, CUnsignedAlert.signed, hread]

theorem compromisedAlert_reads :
    Reads CUnsignedAlert.unserialize compromisedAlert.serialize compromisedAlert :=
  CUnsignedAlert.reads (by decide) (by decide) (by decide) (by decide) (by decide) (by decide)

theorem overridingAlert_reads :
    Reads CUnsignedAlert.unserialize overridingAlert.serialize overridingAlert :=
  CUnsignedAlert.reads (by decide) (by decide) (by decide) (by decide) (by decide) (by decide)

/-- The alert that the key is compromised is accepted, and still a later alert with a smaller
number is accepted and drops it. -/
theorem processAlert_latch_lost :
    (alertStep lengthHash (fun _ _ => true) ∅ (0, compromisedAlert.signed [])).1 = true ∧
    compromisedAlert.nID = maxInt ∧ overridingAlert.nID < maxInt ∧
    (alertStep lengthHash (fun _ _ => true)
      (alertStep lengthHash (fun _ _ => true) ∅ (0, compromisedAlert.signed [])).2
      (1, overridingAlert.signed [])).1 = true ∧
    ¬Latched (alertStep lengthHash (fun _ _ => true)
      (alertStep lengthHash (fun _ _ => true) ∅ (0, compromisedAlert.signed [])).2
      (1, overridingAlert.signed [])).2 := by
  have hfirst : acceptAlert lengthHash 0 (compromisedAlert.signed []) ∅ =
      (true, (∅ : MapAlerts).insertIfNew (lengthHash compromisedAlert.serialize)
        (compromisedAlert.signed [])) := by rfl
  rw [alertStep_signed compromisedAlert_reads, alertStep_signed overridingAlert_reads, hfirst]
  dsimp only
  -- nothing is left of the first alert
  have hdrop : ∀ (h : UInt256) (x : CAlert), ¬(dropCancelled 1 (overridingAlert.signed [])
      ((∅ : MapAlerts).insertIfNew (lengthHash compromisedAlert.serialize)
        (compromisedAlert.signed [])))[h]? = some x := by
    intro h x hx
    obtain ⟨hget, hkeep, -⟩ := getElem?_dropCancelled.mp hx
    rw [Std.ExtTreeMap.getElem?_insertIfNew] at hget
    split at hget
    · cases hget
      exact absurd hkeep (by decide)
    · simp at hget
  obtain ⟨-, hcase⟩ | ⟨-, -, ⟨hcancelled, -⟩ | ⟨-, heq⟩⟩ :=
    acceptAlert_cases lengthHash 1 (overridingAlert.signed [])
      ((∅ : MapAlerts).insertIfNew (lengthHash compromisedAlert.serialize)
        (compromisedAlert.signed []))
  · exact absurd hcase (by decide)
  · obtain ⟨h, x, hx, -⟩ := isCancelled_iff.mp hcancelled
    exact absurd hx (hdrop h x)
  · rw [heq]
    refine ⟨rfl, rfl, by decide, rfl, ?_⟩
    rintro ⟨h, x, hx, hid⟩
    rw [Std.ExtTreeMap.getElem?_insertIfNew] at hx
    split at hx
    · cases hx
      exact absurd hid (by decide)
    · exact hdrop h x hx

/-- The latch after the alert that the key is compromised, for a later alert in effect. -/
theorem processAlert_latch_sample :
    (∀ calls next rest, [((1 : ℤ), overridingAlert.signed [])] = calls ++ next :: rest →
      LatchKept lengthHash (fun _ _ => true) (alertRun lengthHash (fun _ _ => true) calls
        (alertStep lengthHash (fun _ _ => true) ∅ (0, compromisedAlert.signed [])).2) next) ↔
    ∀ next ∈ [((1 : ℤ), overridingAlert.signed [])], Harmless lengthHash (fun _ _ => true) next :=
  processAlert_latch [] _ (0, compromisedAlert.signed []) (compromisedAlert.signed [])
    (by decide) rfl (by
      rw [alertRun, alertStep_signed compromisedAlert_reads]
      rfl)

/-! ## Rejected alerts -/

variable (H verify) in
/-- If the call rejects the alert, every alert in effect is still there. -/
def RejectKeeps (m : MapAlerts) (call : ℤ × CAlert) : Prop :=
  ∀ m', call.2.processAlert H verify call.1 m = .ok (false, m') →
    ∀ (h : UInt256) (x : CAlert), m[h]? = some x → x.isInEffect call.1 = true → m'[h]? = some x

/-- The alert cancels one that is in effect, and another one that it does not cancel cancels it. -/
def CancelsThoughCancelled (nAdjustedTime : ℤ) (alert : CAlert) (m : MapAlerts) : Prop :=
  (alert.nID = maxInt → alert.isKeyCompromised = true) ∧
    (∃ (h : UInt256) (x : CAlert), m[h]? = some x ∧ x.isInEffect nAdjustedTime = true ∧
      alert.cancels nAdjustedTime x.toCUnsignedAlert = true) ∧
    ∃ (h : UInt256) (y : CAlert), m[h]? = some y ∧
      alert.cancels nAdjustedTime y.toCUnsignedAlert = false ∧
      y.cancels nAdjustedTime alert.toCUnsignedAlert = true

theorem isInEffect_of_cancels {x y : CUnsignedAlert} (h : x.cancels nAdjustedTime y = true) :
    x.isInEffect nAdjustedTime = true :=
  (Bool.and_eq_true_iff.mp h).1

theorem acceptAlert_keeps_iff :
    ((acceptAlert H nAdjustedTime alert m).1 = false → ∀ (h : UInt256) (x : CAlert),
      m[h]? = some x → x.isInEffect nAdjustedTime = true →
        (acceptAlert H nAdjustedTime alert m).2[h]? = some x) ↔
    ¬CancelsThoughCancelled nAdjustedTime alert m := by
  constructor
  · rintro hkeeps ⟨hformat, ⟨h, x, hx, hxeffect, hcancels⟩, k, y, hy, hspared, hcancelled⟩
    have hdropped : isCancelled nAdjustedTime alert (dropCancelled nAdjustedTime alert m) = true :=
      isCancelled_iff.mpr ⟨k, y, getElem?_dropCancelled.mpr
        ⟨hy, hspared, isInEffect_of_cancels hcancelled⟩, hcancelled⟩
    obtain ⟨-, hout | hid⟩ | ⟨-, -, ⟨-, heq⟩ | ⟨hnot, -⟩⟩ := acceptAlert_cases H nAdjustedTime alert m
    · rw [isInEffect_of_cancels hcancels] at hout
      cases hout
    · rw [hformat hid.1] at hid
      cases hid.2
    · have hkept := hkeeps (by rw [heq]) h x hx hxeffect
      rw [heq] at hkept
      have hnot := (getElem?_dropCancelled.mp hkept).2.1
      rw [hcancels] at hnot
      cases hnot
    · rw [hdropped] at hnot
      cases hnot
  · intro hclash hrej h x hx hxeffect
    obtain ⟨heq, -⟩ | ⟨-, hformat, ⟨hcancelled, heq⟩ | ⟨-, heq⟩⟩ :=
      acceptAlert_cases H nAdjustedTime alert m
    · rw [heq]
      exact hx
    · rw [heq]
      obtain ⟨k, y, hy, hyc⟩ := isCancelled_iff.mp hcancelled
      obtain ⟨hym, hspared, -⟩ := getElem?_dropCancelled.mp hy
      refine getElem?_dropCancelled.mpr ⟨hx, ?_, hxeffect⟩
      rw [← Bool.not_eq_true]
      intro hcancels
      exact hclash ⟨hformat, ⟨h, x, hx, hxeffect, hcancels⟩, k, y, hym, hspared, hyc⟩
    · rw [heq] at hrej
      cases hrej

theorem rejectKeeps_of_signed {call : ℤ × CAlert}
    (hsig : call.2.checkSignature H verify = .ok (some alert)) :
    RejectKeeps H verify m call ↔ ¬CancelsThoughCancelled call.1 alert m := by
  rw [RejectKeeps, CAlert.processAlert, hsig, ← acceptAlert_keeps_iff (H := H)]
  constructor
  · intro hkeeps hrej
    exact hkeeps _ (congrArg Except.ok (Prod.ext hrej rfl))
  · intro hkeeps m' heq
    rw [Except.ok.inj heq] at hkeeps
    exact hkeeps rfl

/-- A rejected alert leaves every alert in effect if and only if it does not cancel one of
them while another one cancels it. -/
theorem rejectKeeps_iff (H : Bytes → UInt256) (verify : UInt256 → Bytes → Bool) (m : MapAlerts)
    (call : ℤ × CAlert) : RejectKeeps H verify m call ↔
      ∀ alert, call.2.checkSignature H verify = .ok (some alert) →
        ¬CancelsThoughCancelled call.1 alert m := by
  cases hsig : call.2.checkSignature H verify with
  | error e =>
    rw [RejectKeeps, CAlert.processAlert, hsig]
    exact ⟨fun _ _ => nofun, fun _ _ => nofun⟩
  | ok r =>
    cases r with
    | none =>
      rw [RejectKeeps, CAlert.processAlert, hsig]
      refine ⟨fun _ _ => nofun, fun _ m' heq h x hx _ => ?_⟩
      cases heq
      exact hx
    | some alert =>
      simp only [Except.ok.injEq, Option.some.injEq, forall_eq']
      exact rejectKeeps_of_signed hsig

/-- An alert with a number, that cancels a list of numbers. -/
def cancelAlert (nID : Int32) (setCancel : List Int32) : CUnsignedAlert :=
  ⟨1, 1000, 1000, nID, 0, setCancel, 0, maxInt, [], 100, [], [], []⟩

theorem cancelAlert_reads {nID : Int32} {setCancel : List Int32} (h : setCancel.length ≤ 1) :
    Reads CUnsignedAlert.unserialize (cancelAlert nID setCancel).serialize
      (cancelAlert nID setCancel) :=
  CUnsignedAlert.reads (h.trans (by decide)) (Nat.zero_le _) nofun (Nat.zero_le _) (Nat.zero_le _)
    (Nat.zero_le _)

/-- Alert 12 cancels 11, is rejected because 10 cancels it, and 11 is gone. -/
theorem rejected_alert_drops :
    ¬∀ (H : Bytes → UInt256) (verify : UInt256 → Bytes → Bool) (calls : List (ℤ × CAlert))
      (call : ℤ × CAlert) (alert : CAlert), call.2.checkSignature H verify = .ok (some alert) →
        RejectKeeps H verify (alertRun H verify calls ∅) call := by
  intro hall
  have hsig : CAlert.checkSignature lengthHash (fun _ _ => true) ((cancelAlert 12 [11]).signed []) =
      .ok (some ((cancelAlert 12 [11]).signed [])) := by decide
  have hkeeps := hall lengthHash (fun _ _ => true)
    [(0, (cancelAlert 10 [12]).signed []), (0, (cancelAlert 11 []).signed [])]
    (0, (cancelAlert 12 [11]).signed []) _ hsig
  refine (rejectKeeps_of_signed hsig).mp hkeeps ?_
  simp only [alertRun]
  rw [alertStep_signed (cancelAlert_reads (by decide)), alertStep_signed (cancelAlert_reads (by decide))]
  refine ⟨by decide, ⟨lengthHash (cancelAlert 11 []).serialize, (cancelAlert 11 []).signed [], ?_⟩,
    lengthHash (cancelAlert 10 [12]).serialize, (cancelAlert 10 [12]).signed [], ?_⟩
  · with_unfolding_all decide
  · with_unfolding_all decide

end Ticoin
