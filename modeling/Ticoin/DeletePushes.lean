import Ticoin.Lib.Segments
import Ticoin.ScriptParsing

/-!
# script.h : deleting the pushes of signatures

A script is operations and, where none can be read, a tail (`CScript.operations`). `FindAndDelete`
of the push of a signature drops the operations that have its bytes and nothing else, and does
nothing more when it is called again, if and only if the push is read wherever it is found between
operations (`CScript.findAndDelete_filters`). That is so for a script shorter than `2 ^ 32` bytes,
and several signatures can then be deleted in any order.

The bytes of operations are the words of a code, which `Lib.Segments` has : what `GetOp2` refuses
is a word with too few bytes after it in 32 bits.
-/

namespace Ticoin

open Codec Segments

namespace CScript

/-! ## FindAndDelete -/

/-- `FindAndDelete` of a non-empty `b` from a position on : the bytes left, and how often
`b` was found. -/
def findAndDeleteFrom (b pc : Bytes) : Bytes × ℕ :=
  if _hb : b ≠ [] ∧ b.isPrefixOf pc then
    let r := findAndDeleteFrom b (pc.drop b.length)
    (r.1, r.2 + 1)
  else
    match _h : getOp2 pc with
    | (none, _) => (pc, 0)
    | (some _, pc') =>
      let r := findAndDeleteFrom b pc'
      (bytesBetween pc pc' ++ r.1, r.2)
termination_by pc.length
decreasing_by
  · have hpos := List.length_pos_iff.mpr _hb.1
    have hle := (List.isPrefixOf_iff_prefix.mp _hb.2).length_le
    rw [List.length_drop]
    omega
  · exact length_getOp2_lt _h

def findAndDelete (script b : Bytes) : Bytes × ℕ :=
  if b = [] then (script, 0) else findAndDeleteFrom b script

/-- The bytes of the operations of a script, and the tail at which none is read. -/
def operations (pc : Bytes) : List Bytes × Bytes :=
  match _h : getOp2 pc with
  | (none, _) => ([], pc)
  | (some _, pc') => (bytesBetween pc pc' :: (operations pc').1, (operations pc').2)
termination_by pc.length
decreasing_by all_goals exact length_getOp2_lt _h

/-- The positions between operations, the one at the tail among them. -/
inductive Position : Bytes → Bytes → Prop
  | start (pc : Bytes) : Position pc pc
  | next {pc pc' pc'' : Bytes} {op : ScriptOp} (hop : getOp2 pc = (some op, pc'))
      (h : Position pc' pc'') : Position pc pc''

/-- Where the push of a vector is found between operations, it is the operation read. -/
def ReadsPush (script sig : Bytes) : Prop :=
  ∀ pc, Position script pc → pushVector sig <+: pc →
    ∃ op pc', getOp2 pc = (some op, pc') ∧ pc = pushVector sig ++ pc'

/-! ## Words -/

/-- The operation in front of a script, if there is one. -/
def nextWord (pc : Bytes) : Option (Bytes × Bytes) :=
  match Ticoin.getOp2 pc with
  | (none, _) => none
  | (some _, pc') => some (bytesBetween pc pc', pc')

theorem nextWord_eq_some {s t r : Bytes} :
    nextWord s = some (t, r) ↔ s = t ++ r ∧ ∃ op, Ticoin.getOp2 s = (some op, r) := by
  unfold nextWord
  rcases hop : Ticoin.getOp2 s with ⟨_ | op, pc'⟩
  · simp
  · obtain ⟨data, rfl, -⟩ := Ticoin.getOp2_eq_append hop
    dsimp only
    rw [← List.cons_append, bytesBetween_append]
    constructor
    · rintro h
      cases h
      exact ⟨rfl, op, rfl⟩
    · rintro ⟨heq, op', h⟩
      cases h
      rw [List.append_cancel_right heq]

/-- The words of scripts. -/
def scriptReader : WordReader UInt8 where
  next := nextWord
  eq_append h := (nextWord_eq_some.mp h).1
  ne_nil h := by
    rintro rfl
    obtain ⟨heq, op, hop⟩ := nextWord_eq_some.mp h
    have hlt := Ticoin.length_getOp2_lt hop
    rw [heq] at hlt
    exact Nat.lt_irrefl _ hlt
  next_append h r' := by
    obtain ⟨rfl, op, hop⟩ := nextWord_eq_some.mp h
    exact nextWord_eq_some.mpr ⟨rfl, op, getOp2_append hop r'⟩

/-- `GetOp2` reads a word, unless too few bytes follow in 32 bits. -/
theorem read_eq_some {s t r : Bytes} : scriptReader.read leavesEnough s = some (t, r) ↔
    s = t ++ r ∧ ∃ op, getOp2 s = (some op, r) := by
  unfold WordReader.read
  split
  · rename_i hle
    rw [getOp2_of_leavesEnough hle]
    exact nextWord_eq_some
  · rename_i hle
    have hnone := getOp2_of_not_leavesEnough (Bool.eq_false_of_not_eq_true hle)
    refine iff_of_false (Option.some_ne_none _).symm fun h => ?_
    obtain ⟨-, op, hop⟩ := h
    rw [hop] at hnone
    cases hnone

theorem read_of_some {pc pc' : Bytes} {op : ScriptOp} (h : getOp2 pc = (some op, pc')) :
    scriptReader.read leavesEnough pc = some (bytesBetween pc pc', pc') := by
  obtain ⟨data, rfl⟩ := getOp2_eq_append h
  rw [read_eq_some, ← List.cons_append, bytesBetween_append]
  exact ⟨rfl, op, h⟩

theorem read_of_none {pc pc' : Bytes} (h : getOp2 pc = (none, pc')) :
    scriptReader.read leavesEnough pc = none := by
  rw [Option.eq_none_iff_forall_ne_some]
  rintro ⟨t, r⟩ hread
  obtain ⟨-, op, hop⟩ := read_eq_some.mp hread
  rw [h] at hop
  cases hop

theorem operations_eq (pc : Bytes) : operations pc = scriptReader.segments leavesEnough pc := by
  induction pc using operations.induct with
  | case1 pc pc' h =>
    rw [WordReader.segments_of_none (read_of_none h), operations]
    split
    · rfl
    · rename_i h'
      rw [h] at h'
      cases h'
  | case2 pc op pc' h ih =>
    rw [WordReader.segments_of_some (read_of_some h), operations]
    split
    · rename_i h'
      rw [h] at h'
      cases h'
    · rename_i h'
      rw [h] at h'
      cases h'
      rw [ih]

/-- The bytes left are those left of the words. -/
theorem findAndDeleteFrom_fst {b : Bytes} (hne : b ≠ []) (pc : Bytes) :
    (findAndDeleteFrom b pc).1 = scriptReader.erase leavesEnough b pc := by
  induction pc using findAndDeleteFrom.induct b with
  | case1 pc hb ih =>
    obtain ⟨rest, rfl⟩ := List.isPrefixOf_iff_prefix.mp hb.2
    rw [List.drop_left] at ih
    rw [WordReader.erase_front hne, findAndDeleteFrom, dif_pos hb, List.drop_left]
    exact ih
  | case2 pc hb pc' h =>
    have hpre : ¬b <+: pc := fun hpre => hb ⟨hne, List.isPrefixOf_iff_prefix.mpr hpre⟩
    rw [WordReader.erase_of_none hpre (read_of_none h), findAndDeleteFrom, dif_neg hb]
    split
    · rfl
    · rename_i h'
      rw [h] at h'
      cases h'
  | case3 pc hb op pc' h ih =>
    have hpre : ¬b <+: pc := fun hpre => hb ⟨hne, List.isPrefixOf_iff_prefix.mpr hpre⟩
    rw [WordReader.erase_of_some hpre (read_of_some h), findAndDeleteFrom, dif_neg hb]
    split
    · rename_i h'
      rw [h] at h'
      cases h'
    · rename_i h'
      rw [h] at h'
      cases h'
      exact congrArg (bytesBetween pc pc' ++ ·) ih

theorem pushVector_ne_nil (b : Bytes) : pushVector b ≠ [] := by
  unfold pushVector
  split_ifs <;> exact List.cons_ne_nil _ _

theorem findAndDelete_fst {b : Bytes} (hne : b ≠ []) (script : Bytes) :
    (findAndDelete script b).1 = scriptReader.erase leavesEnough b script := by
  rw [findAndDelete, if_neg hne, findAndDeleteFrom_fst hne]

/-- What is to be left when operations with these bytes are dropped. -/
def withoutOps (bs : List Bytes) (script : Bytes) : Bytes :=
  ((operations script).1.filter (· ∉ bs)).flatten ++ (operations script).2

theorem withoutOps_singleton (b script : Bytes) :
    withoutOps [b] script = scriptReader.without leavesEnough b script := by
  unfold withoutOps WordReader.without
  rw [operations_eq]
  simp only [List.mem_singleton]

theorem position_iff {s s' : Bytes} :
    Position s s' ↔ scriptReader.Reaches leavesEnough s s' := by
  constructor
  · intro h
    induction h with
    | start pc => exact .refl pc
    | next hop _ ih => exact .step (read_of_some hop) ih
  · intro h
    induction h with
    | refl s => exact .start s
    | step h _ ih =>
      obtain ⟨-, op, hop⟩ := read_eq_some.mp h
      exact .next hop ih

theorem readsPush_iff {script sig : Bytes} :
    ReadsPush script sig ↔ scriptReader.ReadWhereFound leavesEnough (pushVector sig) script := by
  constructor
  · intro h pc hpc hpre
    obtain ⟨op, pc', hop, heq⟩ := h pc (position_iff.mpr hpc) hpre
    exact ⟨pc', read_eq_some.mpr ⟨heq, op, hop⟩⟩
  · intro h pc hpc hpre
    obtain ⟨pc', hread⟩ := h pc (position_iff.mp hpc) hpre
    obtain ⟨heq, op, hop⟩ := read_eq_some.mp hread
    exact ⟨op, pc', hop, heq⟩

/-! ## Signatures -/

/-- The push of a signature is a word, or longer than any script of less than `2 ^ 32` bytes. -/
theorem word_pushVector (sig : Bytes) :
    scriptReader.Word (pushVector sig) ∨ 2 ^ 32 ≤ (pushVector sig).length := by
  rcases Nat.lt_or_ge sig.length (2 ^ 32) with hlt | hge
  · obtain ⟨opcode, -, hop⟩ := getOp2_pushVector hlt []
    rw [List.append_nil] at hop
    exact .inl (nextWord_eq_some.mpr ⟨(List.append_nil _).symm, _, hop⟩)
  · refine .inr (hge.trans ?_)
    unfold pushVector
    split_ifs <;> simp only [List.length_cons, List.length_append, List.cons_append] <;> omega

/-- Of a short script no operation is refused. -/
theorem read_eq_nextWord (s : Bytes) (h : s.length < 2 ^ 32) :
    scriptReader.read leavesEnough s = nextWord s := by
  unfold WordReader.read
  split
  · rfl
  · rename_i hle
    symm
    rw [Option.eq_none_iff_forall_ne_some]
    rintro ⟨t, r⟩ hword
    obtain ⟨-, op, hop⟩ := nextWord_eq_some.mp hword
    exact hle (leavesEnough_of_lt hop h)

/-- Deleting several signatures of a short script leaves the operations that push none of them. -/
theorem foldl_findAndDelete {script : Bytes} (h : script.length < 2 ^ 32) (sigs : List Bytes) :
    sigs.foldl (fun script sig => (findAndDelete script (pushVector sig)).1) script =
      withoutOps (sigs.map pushVector) script := by
  have hwords : ∀ b ∈ sigs.map pushVector,
      b ≠ [] ∧ (scriptReader.Word b ∨ 2 ^ 32 ≤ b.length) := by
    intro b hb
    obtain ⟨sig, -, rfl⟩ := List.mem_map.mp hb
    exact ⟨pushVector_ne_nil sig, word_pushVector sig⟩
  have hfold := WordReader.foldl_erase read_eq_nextWord h hwords
  rw [withoutOps, operations_eq, ← hfold, List.foldl_map]
  exact congrArg (List.foldl · script sigs) (funext fun script => funext fun sig =>
    findAndDelete_fst (pushVector_ne_nil sig) script)

/-- **Filtering** : `FindAndDelete` of the push of a signature drops the operations that have its
bytes, and nothing else, and changes nothing the second time, if and only if the push is read
wherever it is found between operations. Of a script shorter than `2 ^ 32` bytes it is, and several
signatures can be deleted in any order. -/
theorem findAndDelete_filters (script sig : Bytes) :
    ((findAndDelete script (pushVector sig)).1 = withoutOps [pushVector sig] script ∧
        (findAndDelete (findAndDelete script (pushVector sig)).1 (pushVector sig)).1 =
          (findAndDelete script (pushVector sig)).1 ↔ ReadsPush script sig) ∧
      (script.length < 2 ^ 32 → ReadsPush script sig ∧
        (∀ sigs : List Bytes,
          sigs.foldl (fun script sig => (findAndDelete script (pushVector sig)).1) script =
            withoutOps (sigs.map pushVector) script) ∧
        ∀ sigs sigs' : List Bytes, sigs.Perm sigs' →
          sigs.foldl (fun script sig => (findAndDelete script (pushVector sig)).1) script =
            sigs'.foldl (fun script sig => (findAndDelete script (pushVector sig)).1) script) := by
  refine ⟨?_, fun h => ⟨?_, foldl_findAndDelete h, fun sigs sigs' hperm => ?_⟩⟩
  · have hne := pushVector_ne_nil sig
    rw [findAndDelete_fst hne, findAndDelete_fst hne, withoutOps_singleton, readsPush_iff,
      WordReader.erase_eq_iff hne]
    exact and_iff_left_of_imp fun hfound => WordReader.erase_erase hne hfound
  · rw [readsPush_iff]
    exact WordReader.readWhereFound_of_lt read_eq_nextWord h (word_pushVector sig)
  · have hmem : ∀ b, b ∈ sigs.map pushVector ↔ b ∈ sigs'.map pushVector := fun b =>
      (hperm.map pushVector).mem_iff
    rw [foldl_findAndDelete h, foldl_findAndDelete h, withoutOps, withoutOps]
    simp only [hmem]

/-- Two signatures of a short script. -/
theorem findAndDelete_filters_sample :
    [1, 7, 1, 8, 0x51].length < 2 ^ 32 ∧
      [[7], [8]].foldl (fun script sig => (findAndDelete script (pushVector sig)).1)
          [1, 7, 1, 8, 0x51] =
        [[8], [7]].foldl (fun script sig => (findAndDelete script (pushVector sig)).1)
          [1, 7, 1, 8, 0x51] := by
  have hlt : [1, 7, 1, 8, 0x51].length < 2 ^ 32 := by decide
  exact ⟨hlt, ((findAndDelete_filters _ [7]).2 hlt).2.2 _ _ (List.Perm.swap [8] [7] [])⟩

/-- The longest push is not read before another byte, and is deleted from the tail. -/
theorem findAndDelete_tail {sig : Bytes} (hlen : sig.length = 2 ^ 32 - 1) :
    operations (pushVector sig ++ [OP_RETURN]) = ([], pushVector sig ++ [OP_RETURN]) ∧
      (findAndDelete (pushVector sig ++ [OP_RETURN]) (pushVector sig)).1 ≠
        withoutOps [pushVector sig] (pushVector sig ++ [OP_RETURN]) := by
  have hle : leavesEnough (pushVector sig ++ [OP_RETURN]) = false := by
    rw [← Bool.not_eq_true, leavesEnough_push (by omega), hlen, List.length_singleton]
    decide
  have hops : operations (pushVector sig ++ [OP_RETURN]) = ([], pushVector sig ++ [OP_RETURN]) := by
    rw [operations_eq, WordReader.segments_of_none
      (read_of_none (Prod.ext (getOp2_of_not_leavesEnough hle) rfl))]
  refine ⟨hops, fun heq => ?_⟩
  have hshort := WordReader.length_erase_lt scriptReader leavesEnough
    (pushVector_ne_nil sig) (List.prefix_append (pushVector sig) [OP_RETURN])
  rw [findAndDelete_fst (pushVector_ne_nil sig), withoutOps, hops] at heq
  rw [heq] at hshort
  exact Nat.lt_irrefl _ hshort

/-- A signature of almost `2 ^ 32` bytes, before an opcode. -/
theorem not_findAndDelete_filters :
    let sig : Bytes := List.replicate (2 ^ 32 - 1) 0
    (findAndDelete (pushVector sig ++ [OP_RETURN]) (pushVector sig)).1 ≠
      withoutOps [pushVector sig] (pushVector sig ++ [OP_RETURN]) :=
  (findAndDelete_tail List.length_replicate).2

end CScript

end Ticoin
