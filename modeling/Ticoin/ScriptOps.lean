import Ticoin.Script

/-!
# script.h : scripts as lists of operations

A script all of whose operations can be read is a list of operations (`getOps`). Its bytes are
opcodes without data, and data with a size in front of them, and what is written is read back :
an opcode that pushes nothing (`getOps_opcode`) and a vector (`getOps_pushVector`).
-/

namespace Ticoin

open Codec

/-! ## Reading all operations -/

/-- The operations of a script, if all of them can be read. -/
def getOps (pc : Bytes) : Option (List ScriptOp) :=
  if pc = [] then some []
  else
    match _hop : getOp2 pc with
    | (none, _) => none
    | (some op, pc') => (getOps pc').map (op :: ·)
termination_by pc.length
decreasing_by exact length_getOp2_lt (by assumption)

theorem getOps_nil : getOps [] = some [] := by rw [getOps, if_pos rfl]

theorem getOps_of_some {pc pc' : Bytes} {op : ScriptOp} (hop : getOp2 pc = (some op, pc')) :
    getOps pc = (getOps pc').map (op :: ·) := by
  have hne : pc ≠ [] := by
    rintro rfl
    cases hop
  rw [getOps, if_neg hne]
  split
  · rename_i h
    rw [hop] at h
    cases h
  · rename_i h
    rw [hop] at h
    cases h
    rfl

theorem getOps_of_none {pc pc' : Bytes} (hne : pc ≠ []) (hop : getOp2 pc = (none, pc')) :
    getOps pc = none := by
  rw [getOps, if_neg hne]
  split
  · rfl
  · rename_i h
    rw [hop] at h
    cases h

theorem getOps_eq_nil {pc : Bytes} : getOps pc = some [] ↔ pc = [] := by
  constructor
  · intro h
    by_contra hne
    rcases hop : getOp2 pc with ⟨_ | op, pc'⟩
    · rw [getOps_of_none hne hop] at h
      cases h
    · rw [getOps_of_some hop] at h
      obtain ⟨ops, -, h⟩ := Option.map_eq_some_iff.mp h
      cases h
  · rintro rfl
    exact getOps_nil

theorem getOps_eq_cons {pc : Bytes} {op : ScriptOp} {ops : List ScriptOp} :
    getOps pc = some (op :: ops) ↔ ∃ pc', getOp2 pc = (some op, pc') ∧ getOps pc' = some ops := by
  constructor
  · intro h
    have hne : pc ≠ [] := by
      rintro rfl
      rw [getOps_nil] at h
      cases h
    rcases hop : getOp2 pc with ⟨_ | op', pc'⟩
    · rw [getOps_of_none hne hop] at h
      cases h
    · rw [getOps_of_some hop] at h
      obtain ⟨ops', hops, h⟩ := Option.map_eq_some_iff.mp h
      cases h
      exact ⟨pc', rfl, hops⟩
  · rintro ⟨pc', hop, hops⟩
    rw [getOps_of_some hop, hops]
    rfl

/-! ## Writing operations -/

/-- An opcode above the pushes is read without data. -/
theorem getOp2_opcode {opcode : UInt8} (h : ¬opcode ≤ OP_PUSHDATA4) (pc : Bytes) :
    getOp2 (opcode :: pc) = (some ⟨opcode, []⟩, pc) := by
  rw [getOp2, if_neg h]

/-- A push is read back from the opcode, the size and the data. -/
theorem getOp2_push (opcode : UInt8) (size b pc : Bytes) (hop : opcode ≤ OP_PUSHDATA4)
    (hwidth : size.length = pushSizeWidth opcode)
    (hsize : pushSize opcode (size ++ (b ++ pc)) = b.length) :
    getOp2 (opcode :: (size ++ (b ++ pc))) = (some ⟨opcode, b⟩, pc) := by
  rw [getOp2, if_pos hop, hsize, ← hwidth, List.drop_left, getPushData, if_neg, if_neg,
    List.take_left, List.drop_left]
  · rw [List.length_append]
    omega
  · rw [List.length_append]
    omega

theorem toNat_ofNat_of_lt {n : ℕ} (h : n < 256) : (UInt8.ofNat n).toNat = n := by
  rw [UInt8.toNat_ofNat', Nat.mod_eq_of_lt h]

/-- A push with its size as the opcode. -/
theorem getOp2_directPush {b : Bytes} (h : b.length < OP_PUSHDATA1.toNat) (pc : Bytes) :
    UInt8.ofNat b.length ≤ OP_PUSHDATA4 ∧
      getOp2 (UInt8.ofNat b.length :: (b ++ pc)) = (some ⟨UInt8.ofNat b.length, b⟩, pc) := by
  rw [show OP_PUSHDATA1.toNat = 76 from rfl] at h
  have hopcode : UInt8.ofNat b.length < OP_PUSHDATA1 := by
    rw [UInt8.lt_iff_toNat_lt, toNat_ofNat_of_lt (by omega)]
    exact h
  have hle : UInt8.ofNat b.length ≤ OP_PUSHDATA4 := by
    rw [UInt8.le_iff_toNat_le, toNat_ofNat_of_lt (by omega), show OP_PUSHDATA4.toNat = 78 from rfl]
    omega
  refine ⟨hle, getOp2_push _ [] b pc hle ?_ ?_⟩
  · rw [pushSizeWidth, if_pos hopcode]
    rfl
  · rw [pushSize, if_pos hopcode, toNat_ofNat_of_lt (by omega)]

/-- A vector is read back. -/
theorem getOp2_pushVector {b : Bytes} (h : b.length < 2 ^ 32) (pc : Bytes) :
    ∃ opcode ≤ OP_PUSHDATA4, getOp2 (pushVector b ++ pc) = (some ⟨opcode, b⟩, pc) := by
  rw [pushVector]
  split
  · rename_i hdirect
    exact ⟨_, (getOp2_directPush hdirect pc).1, (getOp2_directPush hdirect pc).2⟩
  split
  · rename_i hone
    refine ⟨OP_PUSHDATA1, by decide, getOp2_push _ [_] b pc (by decide) rfl ?_⟩
    change (UInt8.ofNat b.length).toNat + 256 * 0 = b.length
    rw [toNat_ofNat_of_lt (by omega), Nat.mul_zero, Nat.add_zero]
  split
  · rename_i htwo
    refine ⟨OP_PUSHDATA2, by decide, ?_⟩
    change getOp2 (OP_PUSHDATA2 :: (leBytes 2 b.length ++ b ++ pc)) = _
    rw [List.append_assoc]
    refine getOp2_push _ _ b pc (by decide) (length_leBytes 2 _) ?_
    change ofLeBytes (List.take 2 _) = b.length
    rw [List.take_left' (length_leBytes 2 _), ofLeBytes_leBytes_of_lt (by omega)]
  · refine ⟨OP_PUSHDATA4, by decide, ?_⟩
    change getOp2 (OP_PUSHDATA4 :: (leBytes 4 b.length ++ b ++ pc)) = _
    rw [List.append_assoc]
    refine getOp2_push _ _ b pc (by decide) (length_leBytes 4 _) ?_
    change ofLeBytes (List.take 4 _) = b.length
    rw [List.take_left' (length_leBytes 4 _), ofLeBytes_leBytes_of_lt (by omega)]

theorem getOps_opcode {opcode : UInt8} (h : ¬opcode ≤ OP_PUSHDATA4) (pc : Bytes) :
    getOps (opcode :: pc) = (getOps pc).map (⟨opcode, []⟩ :: ·) :=
  getOps_of_some (getOp2_opcode h pc)

/-- A script of opcodes that push nothing. -/
theorem getOps_opcodes : ∀ {script : Bytes}, (∀ opcode ∈ script, ¬opcode ≤ OP_PUSHDATA4) →
    getOps script = some (script.map fun opcode => ⟨opcode, []⟩)
  | [], _ => getOps_nil
  | opcode :: script, h => by
    rw [List.forall_mem_cons] at h
    rw [getOps_opcode h.1, getOps_opcodes h.2]
    rfl

theorem getOps_pushVector {b : Bytes} (h : b.length < 2 ^ 32) (pc : Bytes) :
    ∃ opcode ≤ OP_PUSHDATA4, getOps (pushVector b ++ pc) = (getOps pc).map (⟨opcode, b⟩ :: ·) := by
  obtain ⟨opcode, hle, hop⟩ := getOp2_pushVector h pc
  exact ⟨opcode, hle, getOps_of_some hop⟩

end Ticoin
