import Ticoin.Interpreter

/-!
# The limits of the script interpreter

Every opcode checks how many elements there are before it reads them. A postcondition of
what an evaluation yields (`Yields`) has a rule for each access to a stack, which asks for the
element to be there, so that the opcodes are proved in the order of their accesses.

From a stack within the limits no evaluation reaches an access outside of a stack or an assertion
that fails, whatever the script, the flags and the signatures, and after every opcode the state is
within the limits again (`evalScript_limits`).
-/

namespace Ticoin

open Codec EvalScript

/-! ## Postconditions -/

/-- The evaluation yields what satisfies `P`, or the script fails. It does not access a
stack outside of it, and no assertion fails. -/
def Yields {α : Type} (P : α → Prop) : Eval α → Prop
  | .ok a => P a
  | .error e => e = .returnFalse ∨ e = .scriptNumError

section Rules

variable {α β : Type} {P Q : α → Prop} {R : β → Prop}

theorem Yields.bind {x : Eval α} {f : α → Eval β} (h : Yields P x) (hf : ∀ a, P a → Yields R (f a)) :
    Yields R (x >>= f) := by
  cases x with
  | error e => exact h
  | ok a => exact hf a h

theorem Yields.mono {x : Eval α} (h : Yields P x) (hPQ : ∀ a, P a → Q a) : Yields Q x := by
  cases x with
  | error e => exact h
  | ok a => exact hPQ a h

theorem yields_returnFalse : Yields P (.error .returnFalse) := .inl rfl

/-- Elements are within the limit. -/
def Small (stack : Stack) : Prop := ∀ vch ∈ stack, vch.length ≤ MAX_SCRIPT_ELEMENT_SIZE

theorem Small.cons {stack : Stack} {vch : Bytes} (hvch : vch.length ≤ MAX_SCRIPT_ELEMENT_SIZE)
    (h : Small stack) : Small (vch :: stack) :=
  List.forall_mem_cons.mpr ⟨hvch, h⟩

theorem Small.of_subset {stack stack' : Stack} (h : Small stack) (hsub : stack' ⊆ stack) :
    Small stack' :=
  fun vch hmem => h vch (hsub hmem)

variable {stack : Stack} {i j : ℕ}

theorem yields_need (n : ℕ) : Yields (fun _ => n ≤ stack.length) (need n stack) := by
  rw [need]
  split
  · exact yields_returnFalse
  · rename_i h
    exact not_lt.mp h

theorem yields_stacktop (h : Small stack) (hi : 0 < i) (hle : i ≤ stack.length) :
    Yields (fun vch => vch.length ≤ MAX_SCRIPT_ELEMENT_SIZE) (stacktop stack i) := by
  obtain ⟨i, rfl⟩ : ∃ k, i = k + 1 := ⟨i - 1, by omega⟩
  rw [stacktop, List.getElem?_eq_getElem hle]
  exact h _ (List.getElem_mem hle)

/-- A stack of a number of elements. -/
def Sized (n : ℕ) (stack : Stack) : Prop := Small stack ∧ stack.length = n

theorem yields_popstack {n : ℕ} (h : Sized (n + 1) stack) : Yields (Sized n) (popstack stack) := by
  match stack, h with
  | _ :: stack, h => exact ⟨h.1.of_subset (List.subset_cons_self _ _), Nat.succ.inj h.2⟩

theorem yields_erase {n : ℕ} (h : Sized (n + 1) stack) (hi : 0 < i) (hle : i ≤ n + 1) :
    Yields (Sized n) (erase stack i) := by
  obtain ⟨i, rfl⟩ : ∃ k, i = k + 1 := ⟨i - 1, by omega⟩
  have hlt : i < stack.length := by rw [h.2]; omega
  rw [erase, if_pos hlt]
  exact ⟨h.1.of_subset (List.eraseIdx_subset), by rw [List.length_eraseIdx_of_lt hlt, h.2]; rfl⟩

theorem yields_insert {n : ℕ} {vch : Bytes} (h : Sized n stack)
    (hvch : vch.length ≤ MAX_SCRIPT_ELEMENT_SIZE) (hle : i ≤ n) :
    Yields Small (EvalScript.insert stack i vch) := by
  unfold EvalScript.insert
  rw [if_pos (h.2 ▸ hle)]
  intro v hmem
  rcases (List.mem_insertIdx (h.2 ▸ hle)).mp hmem with rfl | hmem
  · exact hvch
  · exact h.1 v hmem

theorem yields_swap {n : ℕ} (h : Sized n stack) (hi : 0 < i) (hin : i ≤ n) (hj : 0 < j) (hjn : j ≤ n) :
    Yields (Sized n) (swap stack i j) := by
  refine (yields_stacktop h.1 hi (h.2 ▸ hin)).bind fun a ha => ?_
  refine (yields_stacktop h.1 hj (h.2 ▸ hjn)).bind fun b hb => ⟨?_, by simp [h.2]⟩
  intro vch hmem
  rcases List.mem_or_eq_of_mem_set hmem with hmem | rfl
  · rcases List.mem_or_eq_of_mem_set hmem with hmem | rfl
    · exact h.1 vch hmem
    · exact hb
  · exact ha

/-- There are enough elements, or the script fails. -/
theorem yields_of_need {n : ℕ} {f : Unit → Eval β} (h : Small stack)
    (hf : ∀ k, Sized (k + n) stack → Yields R (f ())) : Yields R (need n stack >>= f) :=
  (yields_need n).bind fun _ hn => hf (stack.length - n) ⟨h, by omega⟩

theorem yields_verify {fVerify fValue : Bool} {vch : Bytes} (h : Small stack)
    (hvch : vch.length ≤ MAX_SCRIPT_ELEMENT_SIZE) :
    Yields Small (verify fVerify fValue (vch :: stack)) := by
  rw [verify]
  split
  · exact h.cons hvch
  split
  · exact h
  · exact yields_returnFalse

theorem Sized.top {n : ℕ} (h : Sized n stack) (hi : 0 < i) (hle : i ≤ n) :
    Yields (fun vch => vch.length ≤ MAX_SCRIPT_ELEMENT_SIZE) (stacktop stack i) :=
  yields_stacktop h.1 hi (h.2 ▸ hle)

end Rules

/-! ## Stack ops -/

theorem length_boolVch_le (b : Bool) : (boolVch b).length ≤ MAX_SCRIPT_ELEMENT_SIZE := by
  cases b <;> decide

theorem length_scriptNumSerialize {n : ℤ} (h : n.natAbs < 2 ^ 32) :
    (scriptNumSerialize n).length ≤ MAX_SCRIPT_ELEMENT_SIZE :=
  (length_scriptNumSerialize_le h).trans (by decide)

section StackOps

variable {stack : Stack}

theorem op2Drop_yields (h : Small stack) : Yields Small (op2Drop stack) := by
  refine yields_of_need h fun n hn => ?_
  exact (yields_popstack hn).bind fun _ hn => (yields_popstack hn).mono fun _ hn => hn.1

theorem op2Dup_yields (h : Small stack) : Yields Small (op2Dup stack) := by
  refine yields_of_need h fun n hn => ?_
  refine (hn.top (by omega) (by omega)).bind fun vch1 h1 => ?_
  exact (hn.top (by omega) (by omega)).bind fun vch2 h2 => (h.cons h1).cons h2

theorem op3Dup_yields (h : Small stack) : Yields Small (op3Dup stack) := by
  refine yields_of_need h fun n hn => ?_
  refine (hn.top (by omega) (by omega)).bind fun vch1 h1 => ?_
  refine (hn.top (by omega) (by omega)).bind fun vch2 h2 => ?_
  exact (hn.top (by omega) (by omega)).bind fun vch3 h3 => ((h.cons h1).cons h2).cons h3

theorem op2Over_yields (h : Small stack) : Yields Small (op2Over stack) := by
  refine yields_of_need h fun n hn => ?_
  refine (hn.top (by omega) (by omega)).bind fun vch1 h1 => ?_
  exact (hn.top (by omega) (by omega)).bind fun vch2 h2 => (h.cons h1).cons h2

theorem op2Rot_yields (h : Small stack) : Yields Small (op2Rot stack) := by
  refine yields_of_need h fun n hn => ?_
  refine (hn.top (by omega) (by omega)).bind fun vch1 h1 => ?_
  refine (hn.top (by omega) (by omega)).bind fun vch2 h2 => ?_
  refine (yields_erase hn (by omega) (by omega)).bind fun _ hn => ?_
  exact (yields_erase hn (by omega) (by omega)).bind fun _ hn => (hn.1.cons h1).cons h2

theorem op2Swap_yields (h : Small stack) : Yields Small (op2Swap stack) := by
  refine yields_of_need h fun n hn => ?_
  refine (yields_swap hn (by omega) (by omega) (by omega) (by omega)).bind fun _ hn => ?_
  exact (yields_swap hn (by omega) (by omega) (by omega) (by omega)).mono fun _ hn => hn.1

theorem opIfDup_yields (h : Small stack) : Yields Small (opIfDup stack) := by
  refine yields_of_need h fun n hn => (hn.top (by omega) (by omega)).bind fun vch hvch => ?_
  split
  · exact h.cons hvch
  · exact h

theorem opDepth_yields (h : Small stack) (hlen : stack.length ≤ 1000) :
    Yields Small (opDepth stack) :=
  h.cons (length_scriptNumSerialize (by rw [Int.natAbs_natCast]; omega))

theorem opDrop_yields (h : Small stack) : Yields Small (opDrop stack) :=
  yields_of_need h fun _ hn => (yields_popstack hn).mono fun _ hn => hn.1

theorem opDup_yields (h : Small stack) : Yields Small (opDup stack) :=
  yields_of_need h fun _ hn => (hn.top (by omega) (by omega)).bind fun _ hvch => h.cons hvch

theorem opNip_yields (h : Small stack) : Yields Small (opNip stack) :=
  yields_of_need h fun _ hn => (yields_erase hn (by omega) (by omega)).mono fun _ hn => hn.1

theorem opOver_yields (h : Small stack) : Yields Small (opOver stack) :=
  yields_of_need h fun _ hn => (hn.top (by omega) (by omega)).bind fun _ hvch => h.cons hvch

theorem yields_ofVch (vch : Bytes) :
    Yields (fun bn => -2 ^ 31 < bn ∧ bn < 2 ^ 31) (CScriptNum.ofVch vch) := by
  rw [CScriptNum.ofVch]
  split
  · exact .inr rfl
  · rename_i h
    exact CScriptNum.setVch_bounds (not_lt.mp h)

theorem opPick_yields (fRoll : Bool) (h : Small stack) : Yields Small (opPick fRoll stack) := by
  refine yields_of_need h fun k hk => (hk.top (by omega) (by omega)).bind fun vch _ => ?_
  refine (yields_ofVch vch).bind fun bn _ => (yields_popstack hk).bind fun stack hk => ?_
  dsimp only
  split
  · exact yields_returnFalse
  rename_i hn
  have hlen := hk.2
  refine (hk.top (by omega) (by omega)).bind fun vch hvch => ?_
  cases fRoll with
  | true => exact (yields_erase hk (by omega) (by omega)).bind fun _ hk => hk.1.cons hvch
  | false => exact hk.1.cons hvch

theorem opRot_yields (h : Small stack) : Yields Small (opRot stack) := by
  refine yields_of_need h fun n hn => ?_
  refine (yields_swap hn (by omega) (by omega) (by omega) (by omega)).bind fun _ hn => ?_
  exact (yields_swap hn (by omega) (by omega) (by omega) (by omega)).mono fun _ hn => hn.1

theorem opSwap_yields (h : Small stack) : Yields Small (opSwap stack) := by
  refine yields_of_need h fun n hn => ?_
  exact (yields_swap hn (by omega) (by omega) (by omega) (by omega)).mono fun _ hn => hn.1

theorem opTuck_yields (h : Small stack) : Yields Small (opTuck stack) := by
  refine yields_of_need h fun n hn => (hn.top (by omega) (by omega)).bind fun vch hvch => ?_
  exact yields_insert hn hvch (by omega)

theorem opSize_yields (h : Small stack) : Yields Small (opSize stack) := by
  refine yields_of_need h fun n hn => (hn.top (by omega) (by omega)).bind fun vch hvch => ?_
  refine h.cons (length_scriptNumSerialize ?_)
  rw [MAX_SCRIPT_ELEMENT_SIZE] at hvch
  rw [Int.natAbs_natCast]
  omega

theorem opVerify_yields (h : Small stack) : Yields Small (opVerify stack) := by
  refine yields_of_need h fun n hn => (hn.top (by omega) (by omega)).bind fun vch _ => ?_
  dsimp only
  split
  · exact (yields_popstack hn).mono fun _ hn => hn.1
  · exact yields_returnFalse

theorem opEqual_yields (fVerify : Bool) (h : Small stack) :
    Yields Small (opEqual fVerify stack) := by
  refine yields_of_need h fun n hn => ?_
  refine (hn.top (by omega) (by omega)).bind fun vch1 _ => ?_
  refine (hn.top (by omega) (by omega)).bind fun vch2 _ => ?_
  refine (yields_popstack hn).bind fun _ hn => (yields_popstack hn).bind fun _ hn => ?_
  exact yields_verify hn.1 (length_boolVch_le _)

/-! ## Numeric -/

/-- A number that the operators can take. -/
def InRange (bn : ℤ) : Prop := -2 ^ 31 < bn ∧ bn < 2 ^ 31

theorem natAbs_ofBool_lt (b : Bool) : (CScriptNum.ofBool b).natAbs < 2 ^ 32 := by
  cases b <;> decide

/-- No assertion of the operators fails, and the inner switch has the opcode. -/
theorem unaryOp_yields {opcode : UInt8} {bn : ℤ} (hbn : InRange bn)
    (hop : opcode ∈ [OP_1ADD, OP_1SUB, OP_NEGATE, OP_ABS, OP_NOT, OP_0NOTEQUAL]) :
    Yields (fun bn => bn.natAbs < 2 ^ 32) (unaryOp opcode bn) := by
  obtain ⟨hlo, hhi⟩ := hbn
  have hneg : Yields (fun bn => bn.natAbs < 2 ^ 32) (CScriptNum.neg bn) := by
    rw [CScriptNum.neg, CScriptNum.INT64_MIN, if_neg (by omega)]
    show (-bn).natAbs < 2 ^ 32
    omega
  simp only [List.mem_cons, List.not_mem_nil, or_false] at hop
  rcases hop with rfl | rfl | rfl | rfl | rfl | rfl
  · change Yields _ (CScriptNum.addAssign bn 1)
    rw [CScriptNum.addAssign, CScriptNum.INT64_MAX, if_pos (by omega)]
    show (bn + 1).natAbs < 2 ^ 32
    omega
  · change Yields _ (CScriptNum.subAssign bn 1)
    rw [CScriptNum.subAssign, CScriptNum.INT64_MIN, if_pos (by omega)]
    show (bn - 1).natAbs < 2 ^ 32
    omega
  · exact hneg
  · change Yields _ (if bn < 0 then CScriptNum.neg bn else .ok bn)
    split
    · exact hneg
    · show bn.natAbs < 2 ^ 32
      omega
  · exact natAbs_ofBool_lt _
  · exact natAbs_ofBool_lt _

theorem opUnary_yields {opcode : UInt8} (h : Small stack)
    (hop : opcode ∈ [OP_1ADD, OP_1SUB, OP_NEGATE, OP_ABS, OP_NOT, OP_0NOTEQUAL]) :
    Yields Small (opUnary opcode stack) := by
  refine yields_of_need h fun n hn => (hn.top (by omega) (by omega)).bind fun vch _ => ?_
  refine (yields_ofVch vch).bind fun bn hbn => (unaryOp_yields hbn hop).bind fun bn hbn => ?_
  exact (yields_popstack hn).bind fun _ hn => hn.1.cons (length_scriptNumSerialize hbn)

theorem binaryOp_yields {opcode : UInt8} {bn1 bn2 : ℤ} (h1 : InRange bn1) (h2 : InRange bn2)
    (hop : opcode ∈ [OP_ADD, OP_SUB, OP_BOOLAND, OP_BOOLOR, OP_NUMEQUAL, OP_NUMEQUALVERIFY,
      OP_NUMNOTEQUAL, OP_LESSTHAN, OP_GREATERTHAN, OP_LESSTHANOREQUAL, OP_GREATERTHANOREQUAL,
      OP_MIN, OP_MAX]) :
    Yields (fun bn => bn.natAbs < 2 ^ 32) (binaryOp opcode bn1 bn2) := by
  obtain ⟨hlo1, hhi1⟩ := h1
  obtain ⟨hlo2, hhi2⟩ := h2
  simp only [List.mem_cons, List.not_mem_nil, or_false] at hop
  rcases hop with rfl | rfl | hop
  · show (bn1 + bn2).natAbs < 2 ^ 32
    omega
  · show (bn1 - bn2).natAbs < 2 ^ 32
    omega
  rcases hop with rfl | rfl | rfl | rfl | rfl | rfl | rfl | rfl | rfl | rfl | rfl
  on_goal 10 =>
    show (if bn1 < bn2 then bn1 else bn2).natAbs < 2 ^ 32
    split <;> omega
  on_goal 10 =>
    show (if bn1 > bn2 then bn1 else bn2).natAbs < 2 ^ 32
    split <;> omega
  all_goals exact natAbs_ofBool_lt _

theorem opBinary_yields {opcode : UInt8} (h : Small stack)
    (hop : opcode ∈ [OP_ADD, OP_SUB, OP_BOOLAND, OP_BOOLOR, OP_NUMEQUAL, OP_NUMEQUALVERIFY,
      OP_NUMNOTEQUAL, OP_LESSTHAN, OP_GREATERTHAN, OP_LESSTHANOREQUAL, OP_GREATERTHANOREQUAL,
      OP_MIN, OP_MAX]) : Yields Small (opBinary opcode stack) := by
  refine yields_of_need h fun n hn => ?_
  refine (hn.top (by omega) (by omega)).bind fun vch1 _ => (yields_ofVch vch1).bind fun bn1 h1 => ?_
  refine (hn.top (by omega) (by omega)).bind fun vch2 _ => (yields_ofVch vch2).bind fun bn2 h2 => ?_
  refine (binaryOp_yields h1 h2 hop).bind fun bn hbn => ?_
  refine (yields_popstack hn).bind fun _ hn => (yields_popstack hn).bind fun _ hn => ?_
  have hvch := length_scriptNumSerialize hbn
  exact (yields_stacktop (hn.1.cons hvch) (by omega) (by simp)).bind fun _ _ =>
    yields_verify hn.1 hvch

theorem opWithin_yields (h : Small stack) : Yields Small (opWithin stack) := by
  refine yields_of_need h fun n hn => ?_
  refine (hn.top (by omega) (by omega)).bind fun vch1 _ => (yields_ofVch vch1).bind fun bn1 _ => ?_
  refine (hn.top (by omega) (by omega)).bind fun vch2 _ => (yields_ofVch vch2).bind fun bn2 _ => ?_
  refine (hn.top (by omega) (by omega)).bind fun vch3 _ => (yields_ofVch vch3).bind fun bn3 _ => ?_
  refine (yields_popstack hn).bind fun _ hn => (yields_popstack hn).bind fun _ hn => ?_
  exact (yields_popstack hn).bind fun _ hn => hn.1.cons (length_boolVch_le _)

theorem opHash_yields (hashes : ScriptHashes) (opcode : UInt8) (h : Small stack) :
    Yields Small (opHash hashes opcode stack) := by
  refine yields_of_need h fun n hn => (hn.top (by omega) (by omega)).bind fun vch _ => ?_
  refine (yields_popstack hn).bind fun _ hn => hn.1.cons ?_
  rw [hashVch]
  split_ifs <;> rw [length_leBytes] <;> decide

end StackOps

/-! ## The state -/

/-- What the limits say of a state while an opcode is executed : the number of elements is
checked after it. -/
structure Executing (st : EvalState) : Prop where
  stack : Small st.stack
  altstack : Small st.altstack
  nOpCount : st.nOpCount ≤ 201

/-- The limits. -/
structure Limits (st : EvalState) : Prop extends Executing st where
  length : st.stack.length + st.altstack.length ≤ 1000

section State

variable {st : EvalState}

theorem onStack_yields {f : Stack → Eval Stack} (h : Executing st) (hf : Yields Small (f st.stack)) :
    Yields Executing (onStack f st) :=
  hf.bind fun _ hstack => ⟨hstack, h.altstack, h.nOpCount⟩

theorem opIf_yields (fExec fNot : Bool) (h : Executing st) : Yields Executing (opIf fExec fNot st) := by
  rw [opIf]
  split
  · refine yields_of_need h.stack fun n hn => (hn.top (by omega) (by omega)).bind fun vch _ => ?_
    exact (yields_popstack hn).bind fun _ hn => ⟨hn.1, h.altstack, h.nOpCount⟩
  · exact ⟨h.stack, h.altstack, h.nOpCount⟩

theorem opElse_yields (h : Executing st) : Yields Executing (opElse st) := by
  rw [opElse]
  split
  · exact yields_returnFalse
  · exact ⟨h.stack, h.altstack, h.nOpCount⟩

theorem opEndIf_yields (h : Executing st) : Yields Executing (opEndIf st) := by
  rw [opEndIf]
  split
  · exact yields_returnFalse
  · exact ⟨h.stack, h.altstack, h.nOpCount⟩

theorem opToAltStack_yields (h : Executing st) : Yields Executing (opToAltStack st) := by
  refine yields_of_need h.stack fun n hn => (hn.top (by omega) (by omega)).bind fun vch hvch => ?_
  exact (yields_popstack hn).bind fun _ hn => ⟨hn.1, h.altstack.cons hvch, h.nOpCount⟩

theorem opFromAltStack_yields (h : Executing st) : Yields Executing (opFromAltStack st) := by
  refine yields_of_need h.altstack fun n hn => (hn.top (by omega) (by omega)).bind fun vch hvch => ?_
  exact (yields_popstack hn).bind fun _ hn => ⟨h.stack.cons hvch, hn.1, h.nOpCount⟩

/-- Every case of the switch. -/
theorem switchCases_yields (hashes : ScriptHashes) (fExec : Bool) {opcode : UInt8} (pc : Bytes)
    (h : Limits st) : ∀ c ∈ switchCases hashes fExec opcode pc, opcode ∈ c.1 →
      Yields Executing (c.2 st) := by
  have hex := h.toExecuting
  have hs := h.stack
  have hlen : st.stack.length ≤ 1000 := (Nat.le_add_right _ _).trans h.length
  simp only [switchCases, List.forall_mem_cons, List.not_mem_nil, false_imp_iff, implies_true, and_true]
  exact ⟨fun _ => opIf_yields _ _ hex, fun _ => opElse_yields hex, fun _ => opEndIf_yields hex,
    fun _ => onStack_yields hex (opVerify_yields hs), fun _ => yields_returnFalse,
    fun _ => opToAltStack_yields hex, fun _ => opFromAltStack_yields hex,
    fun _ => onStack_yields hex (op2Drop_yields hs), fun _ => onStack_yields hex (op2Dup_yields hs),
    fun _ => onStack_yields hex (op3Dup_yields hs), fun _ => onStack_yields hex (op2Over_yields hs),
    fun _ => onStack_yields hex (op2Rot_yields hs), fun _ => onStack_yields hex (op2Swap_yields hs),
    fun _ => onStack_yields hex (opIfDup_yields hs),
    fun _ => onStack_yields hex (opDepth_yields hs hlen),
    fun _ => onStack_yields hex (opDrop_yields hs), fun _ => onStack_yields hex (opDup_yields hs),
    fun _ => onStack_yields hex (opNip_yields hs), fun _ => onStack_yields hex (opOver_yields hs),
    fun _ => onStack_yields hex (opPick_yields _ hs), fun _ => onStack_yields hex (opRot_yields hs),
    fun _ => onStack_yields hex (opSwap_yields hs), fun _ => onStack_yields hex (opTuck_yields hs),
    fun _ => onStack_yields hex (opSize_yields hs), fun _ => onStack_yields hex (opEqual_yields _ hs),
    fun hop => onStack_yields hex (opUnary_yields hs hop),
    fun hop => onStack_yields hex (opBinary_yields hs hop),
    fun _ => onStack_yields hex (opWithin_yields hs),
    fun _ => onStack_yields hex (opHash_yields hashes _ hs),
    fun _ => ⟨hex.stack, hex.altstack, hex.nOpCount⟩⟩

theorem execPlain_yields (hashes : ScriptHashes) (fExec : Bool) (opcode : UInt8) (pc : Bytes)
    (h : Limits st) : Yields Executing (execPlain hashes fExec opcode pc st) := by
  rw [execPlain]
  split
  · refine ⟨h.stack.cons (length_scriptNumSerialize ?_), h.altstack, h.nOpCount⟩
    have hop := opcode.toNat_lt
    rw [show OP_1.toNat = 81 from rfl]
    omega
  split
  · exact h.toExecuting
  split
  · exact yields_returnFalse
  · rename_i c hc
    have hlabel := List.find?_some hc
    exact switchCases_yields hashes fExec pc h c (List.mem_of_find?_eq_some hc) (by simpa using hlabel)

/-! ## Signatures -/

variable {check : SigCheck → Eval Bool}

theorem andThen_yields {α β : Type} {P : α → Prop} {R : β → Prop} {x : Eval α}
    {f : α → Eval β × List SigCheck} (h : Yields P x) (hf : ∀ a, P a → Yields R (f a).1) :
    Yields R (andThen x f).1 := by
  cases x with
  | error e => exact h
  | ok a => exact hf a h

/-- A check of a signature does not read outside of it. -/
theorem checkSignature_yields (checkSig : SigCheck → Bool) (flags : UInt32) (c : SigCheck) :
    Yields (fun _ => True) (checkSignature checkSig flags c) := by
  obtain ⟨b, hb, -⟩ := checkSignatureEncoding_decides c.vchSig flags
  obtain ⟨b', hb', -⟩ := isCanonicalSignature_decides c.vchSig flags
  obtain ⟨b'', hb''⟩ := isCanonicalPubKey_eq_some c.vchPubKey flags
  rw [checkSignature, hb, isCanonical, hb']
  simp only [hb'', Option.bind_eq_bind, Option.bind_some]
  cases b <;> cases b' <;> cases b'' <;> first | trivial | exact yields_returnFalse

theorem opCheckSig_yields (hcheck : ∀ c, Yields (fun _ => True) (check c)) (fVerify : Bool)
    (h : Executing st) : Yields Executing (opCheckSig check fVerify st).1 := by
  refine andThen_yields (P := fun _ => ∃ k, Sized (k + 2) st.stack) ?_ fun c ⟨k, hk⟩ => ?_
  · refine yields_of_need h.stack fun k hk => ?_
    refine (hk.top (by omega) (by omega)).bind fun vchSig _ => ?_
    exact (hk.top (by omega) (by omega)).bind fun vchPubKey _ => ⟨k, hk⟩
  · refine andThen_yields (hcheck c) fun fSuccess _ => ?_
    dsimp only
    refine onStack_yields h ?_
    refine (yields_popstack hk).bind fun _ hk => (yields_popstack hk).bind fun _ hk => ?_
    exact yields_verify hk.1 (length_boolVch_le _)

/-- The loop reads signatures and keys that are there. -/
theorem checkKeys_yields (hcheck : ∀ c, Yields (fun _ => True) (check c)) {stack : Stack}
    (h : Small stack) (scriptCode : Bytes) : ∀ (nKeysCount nSigsCount isig ikey : ℕ), 0 < isig →
    0 < ikey → nSigsCount ≤ nKeysCount → isig + nSigsCount ≤ stack.length + 1 →
    ikey + nKeysCount ≤ stack.length + 1 →
    Yields (fun _ => True) (checkKeys check stack scriptCode nKeysCount nSigsCount isig ikey).1
  | _, 0, _, _, _, _, _, _, _ => by
    rw [checkKeys]
    trivial
  | 0, nSigsCount + 1, _, _, _, _, hle, _, _ => absurd hle (Nat.not_succ_le_zero nSigsCount)
  | nKeysCount + 1, nSigsCount + 1, isig, ikey, hisig, hikey, hle, hsigs, hkeys => by
    rw [checkKeys]
    refine andThen_yields (P := fun _ => True) ?_ fun c _ => ?_
    · refine (yields_stacktop h hisig (by omega)).bind fun vchSig _ => ?_
      exact (yields_stacktop h hikey (by omega)).bind fun vchPubKey _ => trivial
    refine andThen_yields (hcheck c) fun fOk _ => ?_
    cases fOk with
    | true =>
      simp only [↓reduceIte]
      split
      · trivial
      · rename_i hleft
        exact checkKeys_yields hcheck h scriptCode nKeysCount _ _ _ (Nat.succ_pos isig)
          (Nat.succ_pos ikey) (not_lt.mp hleft) (by omega) (by omega)
    | false =>
      simp only [Bool.false_eq_true, ↓reduceIte]
      split
      · trivial
      · rename_i hleft
        exact checkKeys_yields hcheck h scriptCode nKeysCount _ _ _ hisig
          (Nat.succ_pos ikey) (not_lt.mp hleft) hsigs (by omega)

theorem popstackN_yields {k : ℕ} : ∀ {n : ℕ} {stack : Stack}, Sized (k + n) stack →
    Yields (Sized k) (popstackN n stack)
  | 0, _, h => h
  | n + 1, _, h => (yields_popstack (n := k + n) h).bind fun _ h => popstackN_yields h

theorem countAt_yields {stack : Stack} (h : Small stack) {i : ℕ} (hi : 0 < i) (nMax : ℕ) :
    Yields (fun n => n ≤ nMax ∧ i ≤ stack.length) (countAt stack i nMax) := by
  refine (yields_need i).bind fun _ hle => (yields_stacktop h hi hle).bind fun vch _ => ?_
  refine (yields_ofVch vch).bind fun bn _ => ?_
  dsimp only
  split
  · exact yields_returnFalse
  · rename_i hn
    exact ⟨by omega, hle⟩

theorem yields_foldlM {α β : Type} {f : β → α → Eval β} : ∀ {l : List α},
    (∀ b, ∀ x ∈ l, Yields (fun _ => True) (f b x)) → ∀ b, Yields (fun _ => True) (l.foldlM f b)
  | [], _, _ => trivial
  | x :: l, h, b => by
    rw [List.foldlM_cons]
    exact (h b x List.mem_cons_self).bind fun b' _ =>
      yields_foldlM (fun b y hy => h b y (List.mem_cons_of_mem x hy)) b'

theorem deleteSigs_yields {stack : Stack} (h : Small stack) {isig nSigsCount : ℕ} (hi : 0 < isig)
    (hle : isig + nSigsCount ≤ stack.length + 1) (scriptCode : Bytes) :
    Yields (fun _ => True) (deleteSigs stack isig nSigsCount scriptCode) := by
  refine yields_foldlM (fun scriptCode k hk => ?_) scriptCode
  have hlt := List.mem_range.mp hk
  exact (yields_stacktop h (by omega) (by omega)).bind fun vchSig _ => trivial

theorem opCheckMultiSig_yields (hcheck : ∀ c, Yields (fun _ => True) (check c)) (fVerify : Bool)
    (h : Executing st) : Yields Executing (opCheckMultiSig check fVerify st).1 := by
  refine andThen_yields (P := fun n => n.2.1 ≤ n.1 ∧ st.nOpCount + n.1 ≤ 201 ∧
    ∃ k, Sized (k + (3 + n.1 + n.2.1)) st.stack) ?_ ?_
  · refine (countAt_yields h.stack (by omega) 20).bind fun nKeysCount _ => ?_
    split
    · exact yields_returnFalse
    rename_i hcount
    refine (countAt_yields h.stack (by omega) nKeysCount).bind fun nSigsCount hsigs => ?_
    refine yields_of_need h.stack fun k hk => ?_
    have hlen := hk.2
    refine (deleteSigs_yields h.stack (by omega) (by omega) _).bind fun scriptCode _ => ?_
    exact ⟨hsigs.1, not_lt.mp hcount, k, hk⟩
  · rintro ⟨nKeysCount, nSigsCount, scriptCode⟩ ⟨hsigs, hcount, k, hk⟩
    have hlen := hk.2
    dsimp only at hsigs hcount hk hlen
    refine (checkKeys_yields hcheck h.stack scriptCode nKeysCount nSigsCount _ _ (by omega) (by omega)
      hsigs (by omega) (by omega)).bind fun fSuccess _ => ?_
    refine onStack_yields ⟨h.stack, h.altstack, hcount⟩ ?_
    exact (popstackN_yields hk).bind fun _ hk => yields_verify hk.1 (length_boolVch_le _)

theorem execOp_yields (hcheck : ∀ c, Yields (fun _ => True) (check c)) (hashes : ScriptHashes)
    (fExec : Bool) (opcode : UInt8) (pc : Bytes) (h : Limits st) :
    Yields Executing (execOp check hashes fExec opcode pc st).1 := by
  rw [execOp]
  split
  · exact opCheckSig_yields hcheck _ h.toExecuting
  split
  · exact opCheckMultiSig_yields hcheck _ h.toExecuting
  · exact execPlain_yields hashes fExec opcode pc h

theorem dispatch_yields (hcheck : ∀ c, Yields (fun _ => True) (check c)) (hashes : ScriptHashes)
    (op : ScriptOp) (pc : Bytes) (hsize : op.vch.length ≤ MAX_SCRIPT_ELEMENT_SIZE) (h : Limits st) :
    Yields Executing (dispatch check hashes op pc st).1 := by
  rw [dispatch]
  split
  · exact ⟨h.stack.cons hsize, h.altstack, h.nOpCount⟩
  split
  · exact execOp_yields hcheck hashes _ _ pc h
  · exact h.toExecuting

theorem limitSize_yields (h : Executing st) : Yields Limits (limitSize st) := by
  rw [limitSize]
  split
  · exact yields_returnFalse
  · rename_i hlen
    exact ⟨h, not_lt.mp hlen⟩

/-- An operation keeps the limits. -/
theorem evalOp_yields (hcheck : ∀ c, Yields (fun _ => True) (check c)) (hashes : ScriptHashes)
    (op : ScriptOp) (pc : Bytes) (h : Limits st) :
    Yields Limits (evalOp check hashes op pc st).1 := by
  rw [evalOp]
  split
  · exact yields_returnFalse
  rename_i hsize
  split
  · exact yields_returnFalse
  rename_i hcount
  split
  · exact yields_returnFalse
  have hst : Limits (countOp op.opcode st) := by
    rw [countOp] at hcount ⊢
    split
    · rename_i hop
      rw [if_pos hop] at hcount
      exact ⟨⟨h.stack, h.altstack, not_lt.mp fun hlt => hcount ⟨hop, hlt⟩⟩, h.length⟩
    · exact h
  exact (dispatch_yields hcheck hashes op pc (not_lt.mp hsize) hst).bind fun _ h => limitSize_yields h

end State

/-! ## Runs -/

/-- Every state that is reached from a stack within the limits is within them. -/
theorem limits_of_reached {checkSig : SigCheck → Bool} {flags : UInt32} {hashes : ScriptHashes}
    {stack : Stack} {script pc : Bytes} {st : EvalState} (hlen : stack.length ≤ 1000)
    (hsize : ∀ vch ∈ stack, vch.length ≤ MAX_SCRIPT_ELEMENT_SIZE)
    (h : Tape.Reached opReader (evalOp (checkSignature checkSig flags) hashes) script
      (.init stack script) pc st) : Limits st := by
  have hinit : Limits (.init stack script) := ⟨⟨hsize, nofun, Nat.zero_le _⟩, hlen⟩
  refine h.invariant (I := fun _ st => Limits st) hinit fun {_ pc₂ st₁ st₂ op} hst _ hexec => ?_
  have hyields := evalOp_yields (checkSignature_yields checkSig flags) hashes op pc₂ hst
  rwa [hexec] at hyields

/-- The elements that a script leaves on the stack are not too large. -/
theorem small_of_evalScript {checkSig : SigCheck → Bool} {flags : UInt32} {hashes : ScriptHashes}
    {stack stack' : Stack} {script : Bytes} (hlen : stack.length ≤ 1000)
    (hsize : ∀ vch ∈ stack, vch.length ≤ MAX_SCRIPT_ELEMENT_SIZE)
    (h : (evalScript (checkSignature checkSig flags) hashes stack script).1 = .ok stack') :
    Small stack' := by
  obtain ⟨st, -, -, rfl, hreached⟩ := evalScript_ok h
  exact (limits_of_reached hlen hsize hreached).stack

/-- The interpreter stays within its limits, for every script, transaction, flags and outcome of
the checks of signatures, on every stack within them. After every opcode the state is within the
limits. No access outside of a stack and no assertion is reached, and the evaluation ends with
true or false, with false where an operand is too long. -/
theorem evalScript_limits (checkSig : SigCheck → Bool) (flags : UInt32) (hashes : ScriptHashes)
    (stack : Stack) (script : Bytes) (hlen : stack.length ≤ 1000)
    (hsize : ∀ vch ∈ stack, vch.length ≤ MAX_SCRIPT_ELEMENT_SIZE) :
    (∀ (pc : Bytes) (st : EvalState), Tape.Reached opReader
        (evalOp (checkSignature checkSig flags) hashes) script (.init stack script) pc st →
      st.nOpCount ≤ 201 ∧ st.stack.length + st.altstack.length ≤ 1000 ∧
        (∀ vch ∈ st.stack, vch.length ≤ MAX_SCRIPT_ELEMENT_SIZE) ∧
        ∀ vch ∈ st.altstack, vch.length ≤ MAX_SCRIPT_ELEMENT_SIZE) ∧
    (∀ e, (evalLoop (checkSignature checkSig flags) hashes stack script).1 = .error e →
      e ≠ .outOfRange ∧ e ≠ .assertFailed) ∧
    ((evalLoop (checkSignature checkSig flags) hashes stack script).1 = .error .scriptNumError →
      (evalScript (checkSignature checkSig flags) hashes stack script).1 = .error .returnFalse) ∧
    ((∃ stack', (evalScript (checkSignature checkSig flags) hashes stack script).1 = .ok stack') ∨
      (evalScript (checkSignature checkSig flags) hashes stack script).1 = .error .returnFalse) := by
  have hcheck := checkSignature_yields checkSig flags
  have hreach : ∀ (pc : Bytes) (st : EvalState), Tape.Reached opReader
      (evalOp (checkSignature checkSig flags) hashes) script (.init stack script) pc st → Limits st :=
    fun pc st h => limits_of_reached hlen hsize h
  have herror : ∀ e, (evalLoop (checkSignature checkSig flags) hashes stack script).1 = .error e →
      e = .returnFalse ∨ e = .scriptNumError := by
    intro e he
    rcases Tape.run_cases opReader .returnFalse (evalOp (checkSignature checkSig flags) hashes) script
      (.init stack script) with ⟨st, hok, -⟩ | hstop | ⟨op, pc₁, pc₂, st, e', hst, -, hexec, hrun⟩
    · rw [evalLoop, hok] at he
      cases he
    · rw [evalLoop, hstop] at he
      cases he
      exact .inl rfl
    · rw [evalLoop, hrun] at he
      cases he
      have hyields := evalOp_yields hcheck hashes op pc₂ (hreach _ _ hst)
      rwa [hexec] at hyields
  refine ⟨fun pc st h => ?_, fun e he => ?_, fun he => ?_, ?_⟩
  · have hst := hreach pc st h
    exact ⟨hst.nOpCount, hst.length, hst.stack, hst.altstack⟩
  · rcases herror e he with rfl | rfl
    · exact ⟨by decide, by decide⟩
    · exact ⟨by decide, by decide⟩
  · rw [evalScript_fst, he]
    split <;> rfl
  · rw [evalScript_fst]
    split
    · exact .inr rfl
    cases hrun : (evalLoop (checkSignature checkSig flags) hashes stack script).1 with
    | error e =>
      rcases herror e hrun with rfl | rfl
      · exact .inr rfl
      · exact .inr rfl
    | ok st =>
      change (∃ stack', (if !st.vfExec.isEmpty then Except.error EvalHalt.returnFalse else .ok st.stack) =
        .ok stack') ∨ (if !st.vfExec.isEmpty then Except.error EvalHalt.returnFalse else .ok st.stack) = _
      split
      · exact .inr rfl
      · exact .inl ⟨_, rfl⟩

/-- The limits for an evaluation of one number on an empty stack. -/
theorem evalScript_limits_one :
    (∃ stack', (evalScript (checkSignature (fun _ => true) 0) lengthHashes [] [OP_1]).1 =
      .ok stack') ∨
      (evalScript (checkSignature (fun _ => true) 0) lengthHashes [] [OP_1]).1 =
        .error .returnFalse :=
  (evalScript_limits (fun _ => true) 0 lengthHashes [] [OP_1] (Nat.zero_le _) nofun).2.2.2

end Ticoin
