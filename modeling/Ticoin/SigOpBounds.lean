import Ticoin.Interpreter

/-!
# The count of signature operations bounds the checks

`GetSigOpCount` walks over the operations of a script once, and takes the opcode before an
`OP_CHECKMULTISIG` for the number of its keys. An evaluation checks no more signatures than the
count of its script (`length_evalScript_le`) : if the opcode before pushes a number, the number is
what `OP_CHECKMULTISIG` pops, since either both are executed or none.

For a pay-to-script-hash output the count reads the last data that the script of the input pushes,
which is the script that is evaluated, or a number as a script, which fails before a check
(`log_numberScript`). So the count bounds the calls of `CheckSig` of every verification
(`checkSigCalls_le`).
-/

namespace Ticoin

open Codec EvalScript

/-- The calls of `CheckSig` among the signatures that were checked. -/
def checkSigCalls (flags : UInt32) (log : List SigCheck) : ℕ :=
  log.countP fun c => isCanonical flags c == some true

/-! ## One operation -/

theorem sigOpCountFrom_some {fAccurate : Bool} {lastOpcode : UInt8} {pc pc' : Bytes} {op : ScriptOp}
    (hop : getOp2 pc = (some op, pc')) : sigOpCountFrom fAccurate lastOpcode pc =
      sigOpsOf fAccurate lastOpcode op.opcode + sigOpCountFrom fAccurate op.opcode pc' := by
  rw [sigOpCountFrom]
  split
  · rename_i h
    rw [hop] at h
    cases h
  · rename_i h
    rw [hop] at h
    cases h
    rfl

theorem sigOpCountFrom_none {fAccurate : Bool} {lastOpcode : UInt8} {pc pc' : Bytes}
    (hop : getOp2 pc = (none, pc')) : sigOpCountFrom fAccurate lastOpcode pc = 0 := by
  rw [sigOpCountFrom]
  split
  · rfl
  · rename_i h
    rw [hop] at h
    cases h

section

variable {check : SigCheck → Eval Bool} {hashes : ScriptHashes} {st st' : EvalState} {pc : Bytes}

theorem length_andThen_le {α β : Type} {x : Eval α} {f : α → Eval β × List SigCheck} {n : ℕ}
    (h : ∀ a, x = .ok a → (f a).2.length ≤ n) : (andThen x f).2.length ≤ n := by
  cases x with
  | error e => exact Nat.zero_le n
  | ok a => exact h a rfl

theorem length_opCheckSig_le (fVerify : Bool) : (opCheckSig check fVerify st).2.length ≤ 1 :=
  length_andThen_le fun _ _ => length_andThen_le fun _ _ => le_refl 1

/-- The loop checks at most one signature for each key. -/
theorem length_checkKeys_le {stack : Stack} {scriptCode : Bytes} :
    ∀ {nKeysCount nSigsCount isig ikey : ℕ}, nSigsCount ≤ nKeysCount →
    (checkKeys check stack scriptCode nKeysCount nSigsCount isig ikey).2.length ≤ nKeysCount
  | _, 0, _, _, _ => by
    rw [checkKeys]
    exact Nat.zero_le _
  | 0, nSigsCount + 1, _, _, h => absurd h (Nat.not_succ_le_zero nSigsCount)
  | nKeysCount + 1, nSigsCount + 1, isig, ikey, _ => by
    rw [checkKeys]
    refine length_andThen_le fun c _ => length_andThen_le fun fOk _ => ?_
    dsimp only
    by_cases hleft : (if fOk then nSigsCount else nSigsCount + 1) > nKeysCount
    · rw [if_pos hleft]
      exact Nat.succ_le_succ (Nat.zero_le nKeysCount)
    · rw [if_neg hleft]
      exact Nat.succ_le_succ (length_checkKeys_le (not_lt.mp hleft))

/-- A count that was read, and where it was read. -/
theorem countAt_ok {stack : Stack} {i nMax n : ℕ} (h : countAt stack i nMax = .ok n) :
    n ≤ nMax ∧ ∃ vch, stacktop stack i = .ok vch ∧
      (n : ℤ) = CScriptNum.getint (CScriptNum.setVch vch) := by
  obtain ⟨_, -, h⟩ := Eval.bind_eq_ok.mp h
  obtain ⟨vch, hvch, h⟩ := Eval.bind_eq_ok.mp h
  obtain ⟨bn, hbn, h⟩ := Eval.bind_eq_ok.mp h
  rw [CScriptNum.ofVch] at hbn
  split at hbn
  · cases hbn
  cases hbn
  dsimp only at h
  split at h
  · cases h
  · rename_i hrange
    cases h
    exact ⟨by omega, vch, hvch, by omega⟩

theorem length_opCheckMultiSig_le {fVerify : Bool} {n : ℕ}
    (h : ∀ nKeysCount, countAt st.stack 1 20 = .ok nKeysCount → nKeysCount ≤ n) :
    (opCheckMultiSig check fVerify st).2.length ≤ n := by
  refine length_andThen_le fun ⟨nKeysCount, nSigsCount, scriptCode⟩ ha => ?_
  obtain ⟨nKeys, hkeys, ha⟩ := Eval.bind_eq_ok.mp ha
  split at ha
  · cases ha
  obtain ⟨nSigs, hsigs, ha⟩ := Eval.bind_eq_ok.mp ha
  obtain ⟨_, -, ha⟩ := Eval.bind_eq_ok.mp ha
  obtain ⟨_, -, ha⟩ := Eval.bind_eq_ok.mp ha
  cases ha
  exact (length_checkKeys_le (countAt_ok hsigs).1).trans (h _ hkeys)

/-- An opcode that pushes a number pushes this number. -/
def NumberOnTop (opcode : UInt8) (st : EvalState) : Prop :=
  OP_1 ≤ opcode ∧ opcode ≤ OP_16 → st.vfExec.all id = true →
    st.stack.head? = some (scriptNumSerialize ((opcode.toNat : ℤ) - (OP_1.toNat - 1)))

/-- What the opcode before says of the number of keys. -/
theorem nKeysCount_le {opcode : UInt8} (h : NumberOnTop opcode st) (hexec : st.vfExec.all id = true)
    {nKeysCount : ℕ} (hcount : countAt st.stack 1 20 = .ok nKeysCount) :
    nKeysCount ≤ if true ∧ OP_1 ≤ opcode ∧ opcode ≤ OP_16 then (opcode - (OP_1 - 1)).toNat else 20 := by
  obtain ⟨hmax, vch, hvch, hn⟩ := countAt_ok hcount
  split
  · rename_i hop
    have htop := h hop.2 hexec
    obtain ⟨hlo, hhi⟩ := hop.2
    rw [UInt8.le_iff_toNat_le, show OP_1.toNat = 81 from rfl] at hlo
    rw [UInt8.le_iff_toNat_le, show OP_16.toNat = 96 from rfl] at hhi
    obtain ⟨k, hk⟩ := Nat.exists_eq_add_of_le hlo
    have hnumber : (opcode.toNat : ℤ) - (OP_1.toNat - 1) = (k + 1 : ℕ) := by
      rw [hk, show OP_1.toNat = 81 from rfl]
      push_cast
      ring
    obtain ⟨hserialize, hset⟩ := CScriptNum.scriptNumSerialize_small (n := k + 1) (by omega) (by omega)
    rw [hnumber, hserialize] at htop
    match hstack : st.stack, htop with
    | _ :: _, rfl =>
      rw [hstack] at hvch
      cases hvch
      rw [hset] at hn
      have hsub : (opcode - (OP_1 - 1)).toNat = opcode.toNat - 80 :=
        UInt8.toNat_sub_of_le opcode (OP_1 - 1) (UInt8.le_iff_toNat_le.mpr (by
          rw [show (OP_1 - 1).toNat = 80 from rfl]
          omega))
      rw [CScriptNum.getint] at hn
      omega
  · exact hmax

/-- An operation checks at most as many signatures as the count adds for it. -/
theorem length_evalOp_le {op : ScriptOp} {lastOpcode : UInt8} (h : NumberOnTop lastOpcode st) :
    (evalOp check hashes op pc st).2.length ≤ sigOpsOf true lastOpcode op.opcode := by
  rcases (log_evalOp : (evalOp check hashes op pc st).2 = [] ∨ _) with hlog | hlog
  · rw [hlog]
    exact Nat.zero_le _
  rw [hlog, dispatch]
  split
  · exact Nat.zero_le _
  split
  swap
  · exact Nat.zero_le _
  rename_i hexec
  rw [execOp, sigOpsOf]
  split
  · exact length_opCheckSig_le _
  split
  · rename_i hmulti
    have hall : st.vfExec.all id = true := by
      rw [countOp_vfExec] at hexec
      refine hexec.resolve_right fun hbranch => ?_
      rcases hmulti with hop | hop
      · exact absurd (hop ▸ hbranch) (by decide)
      · exact absurd (hop ▸ hbranch) (by decide)
    refine length_opCheckMultiSig_le fun nKeysCount hcount => ?_
    rw [countOp_stack] at hcount
    exact nKeysCount_le h hall hcount
  · exact Nat.zero_le _

theorem numberOnTop_of_evalOp {op : ScriptOp} (h : (evalOp check hashes op pc st).1 = .ok st') :
    NumberOnTop op.opcode st' := by
  intro hop hall
  have hst := evalOp_ok h
  have hpush : ¬op.opcode ≤ OP_PUSHDATA4 := by
    rw [UInt8.le_iff_toNat_le] at hop ⊢
    exact fun hle => absurd (hop.1.trans hle) (by decide)
  have hbranch : ¬(OP_IF ≤ op.opcode ∧ op.opcode ≤ OP_ENDIF) := by
    rintro ⟨hif, -⟩
    rw [UInt8.le_iff_toNat_le] at hif
    exact absurd (hif.trans (UInt8.le_iff_toNat_le.mp hop.2)) (by decide)
  rw [dispatch, if_neg fun h => hpush h.2] at hst
  split at hst
  · have hnumber : pushesNumber op.opcode = true := by simp [pushesNumber, hop]
    rw [execOp, if_neg, if_neg, execPlain, if_pos hnumber] at hst
    · cases hst
      rfl
    · rintro (heq | heq)
      · exact absurd (heq ▸ hop) (by decide)
      · exact absurd (heq ▸ hop) (by decide)
    · rintro (heq | heq)
      · exact absurd (heq ▸ hop) (by decide)
      · exact absurd (heq ▸ hop) (by decide)
  · rename_i hexec
    cases hst
    rw [countOp_vfExec] at hall hexec
    exact absurd (.inl hall) hexec

/-- The opcode of the operation before. -/
def lastOpcode (last : Option ScriptOp) : UInt8 := (last.map ScriptOp.opcode).getD OP_INVALIDOPCODE

/-- An evaluation checks at most as many signatures as the count says. -/
theorem length_evalScript_le (stack : Stack) (script : Bytes) :
    (evalScript check hashes stack script).2.length ≤ getSigOpCount script true := by
  rw [evalScript]
  split
  · exact Nat.zero_le _
  refine Tape.length_log_le (fun last pc => sigOpCountFrom true (lastOpcode last) pc)
    (fun last _ st => NumberOnTop (lastOpcode last) st) ?_ none ?_
  · intro last pc pc' st op hlast hop
    refine ⟨?_, fun st' h => numberOnTop_of_evalOp h⟩
    rw [sigOpCountFrom_some hop]
    exact Nat.add_le_add_right (length_evalOp_le hlast) _
  · exact fun h => absurd h.2 (by decide)

theorem sigOpsOf_le (lastOpcode opcode : UInt8) :
    sigOpsOf true lastOpcode opcode ≤ sigOpsOf false lastOpcode opcode := by
  rw [sigOpsOf, sigOpsOf]
  split
  · exact le_refl 1
  split
  · rw [if_neg (fun h : false = true ∧ _ => Bool.false_ne_true h.1)]
    split
    · rename_i hop
      obtain ⟨hlo, hhi⟩ := hop.2
      rw [UInt8.le_iff_toNat_le] at hhi
      have hsub : (lastOpcode - (OP_1 - 1)).toNat = lastOpcode.toNat - 80 :=
        UInt8.toNat_sub_of_le lastOpcode (OP_1 - 1) (UInt8.le_trans (show OP_1 - 1 ≤ OP_1 by decide) hlo)
      rw [show OP_16.toNat = 96 from rfl] at hhi
      omega
    · exact le_refl 20
  · exact le_refl 0

/-- The accurate count is at most the other. -/
theorem getSigOpCount_le (script : Bytes) : getSigOpCount script true ≤ getSigOpCount script false := by
  have h : ∀ (n : ℕ) (lastOpcode : UInt8) (pc : Bytes), pc.length = n →
      sigOpCountFrom true lastOpcode pc ≤ sigOpCountFrom false lastOpcode pc := by
    intro n
    induction n using Nat.strongRecOn with
    | ind n ih =>
      intro lastOpcode pc hn
      rcases hop : getOp2 pc with ⟨_ | op, pc'⟩
      · rw [sigOpCountFrom_none hop]
        exact Nat.zero_le _
      · rw [sigOpCountFrom_some hop, sigOpCountFrom_some hop]
        exact Nat.add_le_add (sigOpsOf_le _ _) (ih _ (hn ▸ length_getOp2_lt hop) _ _ rfl)
  exact h _ _ script rfl

/-! ## Pay to script hash -/

/-- A number that an opcode pushes, as a script. -/
def IsNumberScript (script : Bytes) : Prop :=
  ∃ opcode, pushesNumber opcode = true ∧ script = scriptNumSerialize ((opcode.toNat : ℤ) - (OP_1.toNat - 1))

/-- As a script the number is a push without data, or a disabled opcode. -/
theorem numberScript_cases {script : Bytes} (h : IsNumberScript script) :
    script = [OP_RIGHT] ∨ ∃ k, 0 < k ∧ k ≤ 16 ∧ script = [UInt8.ofNat k] := by
  obtain ⟨opcode, hop, rfl⟩ := h
  rw [pushesNumber, Bool.or_eq_true, Bool.and_eq_true, decide_eq_true_iff, decide_eq_true_iff,
    decide_eq_true_iff] at hop
  rcases hop with rfl | ⟨hlo, hhi⟩
  · exact .inl (by decide)
  · rw [UInt8.le_iff_toNat_le, show OP_1.toNat = 81 from rfl] at hlo
    rw [UInt8.le_iff_toNat_le, show OP_16.toNat = 96 from rfl] at hhi
    refine .inr ⟨opcode.toNat - 80, by omega, by omega, ?_⟩
    have hnumber : (opcode.toNat : ℤ) - (OP_1.toNat - 1) = (opcode.toNat - 80 : ℕ) := by
      rw [show OP_1.toNat = 81 from rfl]
      omega
    rw [hnumber]
    exact (CScriptNum.scriptNumSerialize_small (by omega) (by omega)).1

/-- It fails at its first operation. -/
theorem log_numberScript {script : Bytes} (h : IsNumberScript script) (stack : Stack) :
    (evalScript check hashes stack script).2 = [] := by
  rw [evalScript]
  split
  · rfl
  rcases numberScript_cases h with rfl | ⟨k, hpos, hle, rfl⟩
  · have hop : opReader.read [OP_RIGHT] = (some ⟨OP_RIGHT, []⟩, []) := by decide
    exact congrArg Prod.snd (Tape.run_of_error hop rfl)
  · obtain ⟨pc, hop⟩ : ∃ pc, opReader.read [UInt8.ofNat k] = (none, pc) := by
      interval_cases k <;> exact ⟨_, rfl⟩
    exact congrArg Prod.snd (Tape.run_none (List.cons_ne_nil _ _) hop)

/-- The top of the stack is the data last pushed, or a number. -/
def TopIs (data : Bytes) (stack : Stack) : Prop :=
  ∀ top ∈ stack.head?, top = data ∨ IsNumberScript top

theorem lastPush_some {data : Bytes} {pc pc' : Bytes} {op : ScriptOp}
    (hop : getOp2 pc = (some op, pc')) : lastPush data pc =
      if op.opcode > OP_16 then none else lastPush op.vch pc' := by
  have hne : pc ≠ [] := by
    rintro rfl
    cases hop
  rw [lastPush, if_neg hne]
  split
  · rename_i h
    rw [hop] at h
    cases h
  · rename_i h
    rw [hop] at h
    cases h
    rfl

/-- The opcode up to `OP_16` that pushes nothing. -/
theorem reserved_of_le {opcode : UInt8} (hle : opcode ≤ OP_16) (hdata : ¬opcode ≤ OP_PUSHDATA4)
    (hnumber : ¬pushesNumber opcode = true) : opcode = OP_RESERVED := by
  rw [pushesNumber, Bool.or_eq_true, Bool.and_eq_true, decide_eq_true_iff, decide_eq_true_iff,
    decide_eq_true_iff] at hnumber
  rw [← UInt8.toNat_inj] at hnumber ⊢
  rw [UInt8.le_iff_toNat_le] at hle hdata
  simp only [UInt8.le_iff_toNat_le] at hnumber
  rw [show OP_16.toNat = 96 from rfl] at hle hnumber
  rw [show OP_PUSHDATA4.toNat = 78 from rfl] at hdata
  rw [show OP_1.toNat = 81 from rfl, show OP_1NEGATE.toNat = 79 from rfl] at hnumber
  rw [show OP_RESERVED.toNat = 80 from rfl]
  omega

theorem execPlain_reserved {opcode : UInt8} (h : opcode = OP_RESERVED) (fExec : Bool) :
    execPlain hashes fExec opcode pc st = .error .returnFalse := by
  rw [h]
  rfl

/-- An operation that pushes leaves its data on top, or a number. -/
theorem topIs_of_evalOp {op : ScriptOp} (hpush : ¬op.opcode > OP_16) (hexec : st.vfExec = [])
    (h : (evalOp check hashes op pc st).1 = .ok st') : st'.vfExec = [] ∧ TopIs op.vch st'.stack := by
  have hst := evalOp_ok h
  have hall : (countOp op.opcode st).vfExec = [] := by rw [countOp_vfExec, hexec]
  have hbefore := UInt8.not_lt.mp hpush
  rw [dispatch] at hst
  split at hst
  · cases hst
    exact ⟨hall, fun top htop => .inl (Option.some.inj htop).symm⟩
  rename_i hdata
  rw [hall] at hdata hst
  split at hst
  swap
  · rename_i hexec
    exact absurd (.inl rfl) hexec
  rw [execOp, if_neg, if_neg] at hst
  · by_cases hnumber : pushesNumber op.opcode = true
    · rw [execPlain, if_pos hnumber] at hst
      cases hst
      exact ⟨hall, fun top htop => .inr ⟨op.opcode, hnumber, (Option.some.inj htop).symm⟩⟩
    · rw [execPlain_reserved (reserved_of_le hbefore (fun hle => hdata ⟨rfl, hle⟩) hnumber)] at hst
      cases hst
  · rintro (heq | heq)
    · exact absurd (heq ▸ hbefore) (by decide)
    · exact absurd (heq ▸ hbefore) (by decide)
  · rintro (heq | heq)
    · exact absurd (heq ▸ hbefore) (by decide)
    · exact absurd (heq ▸ hbefore) (by decide)

/-- What a script that only pushes leaves on top. -/
theorem topIs_of_evalScript {script : Bytes} {data : Bytes} {stack : Stack}
    (hpush : lastPush [] script = some data) (h : (evalScript check hashes [] script).1 = .ok stack) :
    TopIs data stack := by
  obtain ⟨st, -, -, rfl, hreach⟩ := evalScript_ok h
  obtain ⟨d, hd, -, htop⟩ := hreach.invariant
    (I := fun pc st => ∃ d, lastPush d pc = some data ∧ st.vfExec = [] ∧ TopIs d st.stack)
    ⟨[], hpush, rfl, fun _ htop => absurd htop (Option.not_mem_none _)⟩ fun h hop hst => by
      obtain ⟨d, hd, hexec, -⟩ := h
      rw [lastPush_some hop] at hd
      split at hd
      · cases hd
      · rename_i hle
        exact ⟨_, hd, topIs_of_evalOp hle hexec hst⟩
  rw [lastPush, if_pos rfl] at hd
  cases hd
  exact htop

end

end Ticoin
