import Ticoin.ScriptOps

/-!
# script.h : reading scripts of any length

`GetOp2` compares what is left of a script with the size of a push in 32 bits
(`CScript.getPushData`). Of a script shorter than `2 ^ 32` bytes it reads what `getOp2` reads
(`CScript.getOp2_of_lt`), and of any script nothing else (`CScript.getOp2_eq_some`).

What was written with `operator<<` is read back, operation by operation up to the end, if and only
if what follows the size of every push has at least that many bytes in 32 bits
(`CScript.readOps_writeOps`).
-/

namespace Ticoin

open Codec

/-! ## The bytes of an operation -/

/-- An operation is an opcode that pushes nothing, or an opcode with a size and as many bytes. -/
theorem getOp2_cases {pc pc' : Bytes} {op : ScriptOp} (h : getOp2 pc = (some op, pc')) :
    (¬op.opcode ≤ OP_PUSHDATA4 ∧ op.vch = [] ∧ pc = op.opcode :: pc') ∨
      (op.opcode ≤ OP_PUSHDATA4 ∧ ∃ size : Bytes, size.length = pushSizeWidth op.opcode ∧
        (∀ x, pushSize op.opcode (size ++ x) = op.vch.length) ∧
        pc = op.opcode :: (size ++ (op.vch ++ pc'))) := by
  cases pc with
  | nil => cases h
  | cons opcode pc =>
    rw [getOp2] at h
    by_cases hpush : opcode ≤ OP_PUSHDATA4
    · rw [if_pos hpush] at h
      split at h
      · cases h
      rename_i hwidth
      unfold getPushData at h
      split at h
      · cases h
      rename_i hsize
      cases h
      have htake : (pc.take (pushSizeWidth opcode)).length = pushSizeWidth opcode := by
        rw [List.length_take]
        omega
      refine .inr ⟨hpush, pc.take (pushSizeWidth opcode), htake, fun x => ?_, ?_⟩
      · have hread : pushSize opcode (pc.take (pushSizeWidth opcode) ++ x) = pushSize opcode pc := by
          unfold pushSize
          rw [List.take_append_of_le_length (by rw [htake]), List.take_take, Nat.min_self]
        rw [hread, List.length_take]
        omega
      · rw [List.take_append_drop, List.take_append_drop]
    · rw [if_neg hpush] at h
      cases h
      exact .inl ⟨hpush, rfl, rfl⟩

/-- An operation is read whatever follows it. -/
theorem getOp2_append {t r : Bytes} {op : ScriptOp} (h : getOp2 (t ++ r) = (some op, r))
    (r' : Bytes) : getOp2 (t ++ r') = (some op, r') := by
  obtain ⟨hopcode, hvch, heq⟩ | ⟨hopcode, size, hwidth, hsize, heq⟩ := getOp2_cases h
  · have ht : t = [op.opcode] := List.append_cancel_right (heq.trans List.singleton_append.symm)
    rw [ht, List.singleton_append, getOp2_opcode hopcode, ← hvch]
  · have ht : t = op.opcode :: (size ++ op.vch) := by
      refine List.append_cancel_right (heq.trans ?_)
      rw [List.cons_append, List.append_assoc]
    rw [ht, List.cons_append, List.append_assoc]
    exact getOp2_push _ size op.vch r' hopcode hwidth (hsize _)

namespace CScript

/-! ## GetOp2 -/

/-- Read `nSize` bytes of data. The number of bytes left is compared in 32 bits. -/
def getPushData (opcode : UInt8) (nSize : ℕ) (pc : Bytes) : Option ScriptOp × Bytes :=
  if pc.length % 2 ^ 32 < nSize then (none, pc) else (some ⟨opcode, pc.take nSize⟩, pc.drop nSize)

/-- `GetOp2` : the operation at a position and the position after it. -/
def getOp2 : Bytes → Option ScriptOp × Bytes
  | [] => (none, [])
  | opcode :: pc =>
    if opcode ≤ OP_PUSHDATA4 then
      if pc.length < pushSizeWidth opcode then (none, pc)
      else getPushData opcode (pushSize opcode pc) (pc.drop (pushSizeWidth opcode))
    else (some ⟨opcode, []⟩, pc)

/-- After the size of a push at a position come as many bytes, in 32 bits. -/
def leavesEnough : Bytes → Bool
  | [] => true
  | opcode :: pc =>
    if opcode ≤ OP_PUSHDATA4 ∧ pushSizeWidth opcode ≤ pc.length then
      pushSize opcode pc ≤ (pc.drop (pushSizeWidth opcode)).length % 2 ^ 32
    else true

theorem leavesEnough_of_lt {pc pc' : Bytes} {op : ScriptOp} (hop : Ticoin.getOp2 pc = (some op, pc'))
    (h : pc.length < 2 ^ 32) : leavesEnough pc = true := by
  obtain ⟨hopcode, -, rfl⟩ | ⟨hopcode, size, hwidth, hsize, rfl⟩ := getOp2_cases hop
  · rw [leavesEnough, if_neg fun hpush => hopcode hpush.1]
  · rw [leavesEnough]
    split
    · rw [hsize, ← hwidth, List.drop_left, decide_eq_true_iff, List.length_append]
      rw [List.length_cons, List.length_append, List.length_append] at h
      rw [Nat.mod_eq_of_lt (by omega)]
      omega
    · rfl

/-- Where enough is left, an operation is read as it is. -/
theorem getOp2_of_leavesEnough {pc : Bytes} (h : leavesEnough pc = true) :
    getOp2 pc = Ticoin.getOp2 pc := by
  cases pc with
  | nil => rfl
  | cons opcode pc =>
    rw [getOp2, Ticoin.getOp2]
    split
    · rename_i hopcode
      split
      · rfl
      · rename_i hwidth
        rw [leavesEnough, if_pos ⟨hopcode, by omega⟩, decide_eq_true_iff] at h
        have hle := Nat.mod_le (pc.drop (pushSizeWidth opcode)).length (2 ^ 32)
        rw [getPushData, if_neg (by omega), Ticoin.getPushData, if_neg (by omega)]
    · rfl

/-- Where not enough is left, none is read. -/
theorem getOp2_of_not_leavesEnough {pc : Bytes} (h : leavesEnough pc = false) :
    (getOp2 pc).1 = none := by
  cases pc with
  | nil => rfl
  | cons opcode pc =>
    rw [leavesEnough] at h
    split at h
    · rename_i hpush
      rw [decide_eq_false_iff_not] at h
      rw [getOp2, if_pos hpush.1, if_neg (by omega), getPushData, if_pos (by omega)]
    · cases h

/-- What is read of a script of any length is an operation of it. -/
theorem getOp2_eq_some {pc pc' : Bytes} {op : ScriptOp} :
    getOp2 pc = (some op, pc') ↔ leavesEnough pc = true ∧ Ticoin.getOp2 pc = (some op, pc') := by
  cases h : leavesEnough pc with
  | true =>
    rw [getOp2_of_leavesEnough h]
    exact (and_iff_right rfl).symm
  | false =>
    refine ⟨fun hop => ?_, fun hop => absurd hop.1 Bool.false_ne_true⟩
    have hnone := getOp2_of_not_leavesEnough h
    rw [hop] at hnone
    cases hnone

/-- Of a script shorter than `2 ^ 32` bytes the same is read. -/
theorem getOp2_of_lt {pc pc' : Bytes} {op : ScriptOp} (h : pc.length < 2 ^ 32) :
    getOp2 pc = (some op, pc') ↔ Ticoin.getOp2 pc = (some op, pc') :=
  getOp2_eq_some.trans (and_iff_right_of_imp fun hop => leavesEnough_of_lt hop h)

/-- An operation has at least a byte. -/
theorem getOp2_eq_append {pc pc' : Bytes} {op : ScriptOp} (h : getOp2 pc = (some op, pc')) :
    ∃ data, pc = op.opcode :: (data ++ pc') := by
  obtain ⟨data, heq, -⟩ := Ticoin.getOp2_eq_append (getOp2_eq_some.mp h).2
  exact ⟨data, heq⟩

theorem length_getOp2_lt {pc pc' : Bytes} {op : ScriptOp} (h : getOp2 pc = (some op, pc')) :
    pc'.length < pc.length :=
  Ticoin.length_getOp2_lt (getOp2_eq_some.mp h).2

/-! ## Reading all operations -/

/-- A loop over `GetOp` : the operations read, and the position at which none is read. -/
def readOps (pc : Bytes) : List ScriptOp × Bytes :=
  match _h : getOp2 pc with
  | (none, pc') => ([], pc')
  | (some op, pc') => (op :: (readOps pc').1, (readOps pc').2)
termination_by pc.length
decreasing_by all_goals exact length_getOp2_lt _h

theorem readOps_of_none {pc pc' : Bytes} (h : getOp2 pc = (none, pc')) : readOps pc = ([], pc') := by
  rw [readOps]
  split
  · rename_i h'
    rw [h] at h'
    cases h'
    rfl
  · rename_i h'
    rw [h] at h'
    cases h'

theorem readOps_of_some {pc pc' : Bytes} {op : ScriptOp} (h : getOp2 pc = (some op, pc')) :
    readOps pc = (op :: (readOps pc').1, (readOps pc').2) := by
  rw [readOps]
  split
  · rename_i h'
    rw [h] at h'
    cases h'
  · rename_i h'
    rw [h] at h'
    cases h'
    rfl

/-- No more operations are read than there are bytes. -/
theorem length_readOps_le (pc : Bytes) : (readOps pc).1.length ≤ pc.length := by
  induction pc using readOps.induct with
  | case1 pc pc' h =>
    rw [readOps_of_none h]
    exact Nat.zero_le _
  | case2 pc op pc' h ih =>
    rw [readOps_of_some h]
    exact Nat.succ_le_of_lt (ih.trans_lt (length_getOp2_lt h))

/-! ## Writing operations -/

/-- What is written with `operator<<` : an opcode that pushes nothing, or a vector. -/
inductive WrittenOp
  | opcode (opcode : UInt8) (h : OP_PUSHDATA4 < opcode)
  | push (b : Bytes) (h : b.length < 2 ^ 32)

namespace WrittenOp

/-- The bytes that `operator<<` appends. -/
def bytes : WrittenOp → Bytes
  | .opcode c _ => [c]
  | .push b _ => pushVector b

/-- The operation to be read. -/
def op : WrittenOp → ScriptOp
  | .opcode c _ => ⟨c, []⟩
  | .push b _ => ⟨(pushVector b).headD OP_INVALIDOPCODE, b⟩

end WrittenOp

/-- `operator<<`, one operation after the other. -/
def writeOps (ops : List WrittenOp) : Bytes := ops.foldl (fun script op => script ++ op.bytes) []

/-- What follows the size of each push has at least that many bytes, in 32 bits. -/
def EnoughFollows : List WrittenOp → Prop
  | [] => True
  | .opcode _ _ :: ops => EnoughFollows ops
  | .push b _ :: ops => b.length ≤ (b.length + (ops.flatMap WrittenOp.bytes).length) % 2 ^ 32 ∧
      EnoughFollows ops

theorem writeOps_eq (ops : List WrittenOp) : writeOps ops = ops.flatMap WrittenOp.bytes := by
  have hfold : ∀ script : Bytes, ops.foldl (fun script op => script ++ op.bytes) script =
      script ++ ops.flatMap WrittenOp.bytes := by
    induction ops with
    | nil => exact fun script => (List.append_nil script).symm
    | cons op ops ih =>
      intro script
      rw [List.foldl_cons, ih, List.flatMap_cons, List.append_assoc]
  exact (hfold []).trans (List.nil_append _)

/-- An operation that was written is there to be read. -/
theorem WrittenOp.getOp2_bytes (w : WrittenOp) (pc : Bytes) :
    Ticoin.getOp2 (w.bytes ++ pc) = (some w.op, pc) := by
  match w with
  | .opcode _ h => exact getOp2_opcode (UInt8.not_le.mpr h) pc
  | .push b h =>
    obtain ⟨opcode, -, hop⟩ := getOp2_pushVector h pc
    obtain ⟨data, heq, -⟩ := Ticoin.getOp2_eq_append hop
    have hhead := congrArg (List.headD · OP_INVALIDOPCODE) heq
    rw [List.headD_cons] at hhead
    have hne : pushVector b ≠ [] := by
      unfold pushVector
      split_ifs <;> exact List.cons_ne_nil _ _
    obtain ⟨c, rest, hcons⟩ := List.exists_cons_of_ne_nil hne
    rw [hcons, List.cons_append, List.headD_cons] at hhead
    change Ticoin.getOp2 (pushVector b ++ pc) =
      (some ⟨(pushVector b).headD OP_INVALIDOPCODE, b⟩, pc)
    rw [hop, hcons, List.headD_cons, hhead]

/-- Before the bytes of a push, as many must follow in 32 bits as are pushed. -/
theorem leavesEnough_push {b : Bytes} (h : b.length < 2 ^ 32) (pc : Bytes) :
    leavesEnough (pushVector b ++ pc) = true ↔ b.length ≤ (b.length + pc.length) % 2 ^ 32 := by
  obtain ⟨opcode, hle, hop⟩ := getOp2_pushVector h pc
  obtain ⟨hopcode, -, -⟩ | ⟨-, size, hwidth, hsize, heq⟩ := getOp2_cases hop
  · exact absurd hle hopcode
  · dsimp only at hwidth hsize heq
    have hlen : pushSizeWidth opcode ≤ (size ++ (b ++ pc)).length := by
      rw [List.length_append]
      omega
    rw [heq, leavesEnough, if_pos ⟨hle, hlen⟩, hsize, ← hwidth, List.drop_left, decide_eq_true_iff,
      List.length_append]

/-- One operation is read back if enough follows it, and then those after it. -/
theorem readOps_bytes (w : WrittenOp) (pc : Bytes) (ops : List ScriptOp) :
    readOps (w.bytes ++ pc) = (w.op :: ops, []) ↔
      leavesEnough (w.bytes ++ pc) = true ∧ readOps pc = (ops, []) := by
  cases h : leavesEnough (w.bytes ++ pc) with
  | true =>
    rw [readOps_of_some (getOp2_eq_some.mpr ⟨h, w.getOp2_bytes pc⟩), Prod.mk.injEq, List.cons.injEq,
      Prod.ext_iff]
    simp
  | false =>
    have hnone := getOp2_of_not_leavesEnough h
    rw [readOps_of_none (Prod.ext hnone rfl)]
    simp

theorem readOps_flatMap : ∀ ops : List WrittenOp,
    readOps (ops.flatMap WrittenOp.bytes) = (ops.map WrittenOp.op, []) ↔ EnoughFollows ops
  | [] => iff_of_true (readOps_of_none rfl) trivial
  | .opcode c h :: ops => by
    have hle : leavesEnough ((WrittenOp.opcode c h).bytes ++ ops.flatMap WrittenOp.bytes) = true :=
      if_neg fun hpush => UInt8.not_le.mpr h hpush.1
    rw [List.flatMap_cons, List.map_cons, readOps_bytes, readOps_flatMap ops]
    exact and_iff_right hle
  | .push b h :: ops => by
    rw [List.flatMap_cons, List.map_cons, readOps_bytes, readOps_flatMap ops]
    exact and_congr_left fun _ => leavesEnough_push h _

/-- The position moves within the script, by at least a byte if an operation is read. -/
theorem getOp2_snd (pc : Bytes) :
    (getOp2 pc).2 <:+ pc ∧ ((getOp2 pc).1 ≠ none → (getOp2 pc).2.length < pc.length) := by
  constructor
  · cases pc with
    | nil => exact List.suffix_rfl
    | cons opcode pc =>
      refine List.IsSuffix.trans ?_ (List.suffix_cons opcode pc)
      rw [getOp2]
      split
      · split
        · exact List.suffix_rfl
        · unfold getPushData
          split
          · exact List.drop_suffix _ pc
          · exact (List.drop_suffix _ _).trans (List.drop_suffix _ pc)
      · exact List.suffix_rfl
  · intro h
    obtain ⟨op, hop⟩ := Option.ne_none_iff_exists'.mp h
    exact length_getOp2_lt (Prod.ext hop rfl)

/-- **Scripts are uniquely parsable** : reading what was written gives the operations written, and
ends at the end, if and only if enough follows each push in 32 bits. Reading an operation of any
script moves on by at least a byte and not past the end, so that a loop over the operations ends. -/
theorem readOps_writeOps (ops : List WrittenOp) (pc : Bytes) :
    (readOps (writeOps ops) = (ops.map WrittenOp.op, []) ↔ EnoughFollows ops) ∧
      (getOp2 pc).2 <:+ pc ∧ ((getOp2 pc).1 ≠ none → (getOp2 pc).2.length < pc.length) ∧
      (readOps pc).1.length ≤ pc.length :=
  ⟨by rw [writeOps_eq, readOps_flatMap], (getOp2_snd pc).1, (getOp2_snd pc).2, length_readOps_le pc⟩

/-- A push of almost `2 ^ 32` bytes, and an opcode. -/
def longPush : List WrittenOp :=
  [.push (List.replicate (2 ^ 32 - 1) 0) (by rw [List.length_replicate]; decide),
    .opcode OP_RETURN (by decide)]

/-- As `2 ^ 32` bytes are left, none seem to be, and the push is not read. -/
theorem not_readOps_longPush :
    readOps (writeOps longPush) ≠ (longPush.map WrittenOp.op, []) := by
  rw [writeOps_eq, Ne, readOps_flatMap]
  rintro ⟨hle, -⟩
  rw [List.length_replicate] at hle
  revert hle
  decide

end CScript

end Ticoin
