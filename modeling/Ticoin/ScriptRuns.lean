import Ticoin.MultiSig
import Ticoin.SolverTemplates

/-!
# script.cpp : runs of scripts whose operations are known

A run of the interpreter goes from one operation to the next as long as they succeed. Outside of
branches a push puts its data on the stack (`evalFrom_pushes`), a small integer its number
(`evalFrom_smallInteger`), and another opcode does what it executes (`evalFrom_opcode`).

A script that pushes vectors leaves them on the stack (`evalScript_pushes`), and `FindAndDelete` finds
a vector in a script only if the script pushes it (`findAndDelete_of_not_mem`).
-/

namespace Ticoin

open Codec EvalScript

/-! ## Scripts that push vectors -/

/-- The operation that pushes a vector. -/
def pushOp (b : Bytes) : ScriptOp := ⟨(pushVector b).headD 0, b⟩

theorem getOp2_pushOp {b : Bytes} (h : b.length < 2 ^ 32) (pc : Bytes) :
    (pushOp b).opcode ≤ OP_PUSHDATA4 ∧ getOp2 (pushVector b ++ pc) = (some (pushOp b), pc) := by
  obtain ⟨opcode, hle, hop⟩ := getOp2_pushVector h pc
  obtain ⟨data, hpc, -⟩ := getOp2_eq_append hop
  obtain ⟨c, rest, hb⟩ : ∃ c rest, pushVector b = c :: rest := by
    unfold pushVector
    split
    · exact ⟨_, _, rfl⟩
    split
    · exact ⟨_, _, rfl⟩
    split
    · exact ⟨_, _, rfl⟩
    · exact ⟨_, _, rfl⟩
  rw [hb, List.cons_append, List.cons.injEq] at hpc
  have hopcode : opcode = (pushVector b).headD 0 := by
    rw [hb]
    exact hpc.1.symm
  rw [pushOp, ← hopcode]
  exact ⟨hle, hop⟩

theorem getOps_pushVectors {pc : Bytes} {ops : List ScriptOp} (hrest : getOps pc = some ops) :
    ∀ {vs : List Bytes}, (∀ v ∈ vs, v.length ≤ MAX_SCRIPT_ELEMENT_SIZE) →
      getOps (vs.flatMap pushVector ++ pc) = some (vs.map pushOp ++ ops)
  | [], _ => hrest
  | v :: vs, h => by
    rw [List.forall_mem_cons] at h
    have hlt : v.length < 2 ^ 32 := lt_of_le_of_lt h.1 (by decide)
    rw [List.flatMap_cons, List.append_assoc, getOps_of_some (getOp2_pushOp hlt _).2,
      getOps_pushVectors hrest h.2]
    rfl

/-- The bytes of an operation are at most five more than its data. -/
theorem length_le_of_getOps : ∀ {ops : List ScriptOp} {pc : Bytes}, getOps pc = some ops →
    pc.length ≤ (ops.map fun op => 5 + op.vch.length).sum
  | [], pc, h => by
    rw [getOps_eq_nil.mp h]
    exact Nat.zero_le _
  | op :: ops, pc, h => by
    obtain ⟨pc', hop, hrest⟩ := getOps_eq_cons.mp h
    have hle := length_le_of_getOps hrest
    have hfirst : pc.length ≤ 5 + op.vch.length + pc'.length := by
      match pc, hop with
      | opcode :: pc, hop =>
        rw [getOp2] at hop
        split at hop
        · split at hop
          · cases hop
          rename_i hlen
          obtain ⟨-, hdata⟩ := getPushData_eq_append hop
          have hwidth : pushSizeWidth opcode ≤ 4 := by
            unfold pushSizeWidth
            split
            · decide
            split
            · decide
            split <;> decide
          have hlength := congrArg List.length hdata
          rw [List.length_drop, List.length_append] at hlength
          rw [List.length_cons]
          omega
        · cases hop
          rw [List.length_cons]
          omega
    rw [List.map_cons, List.sum_cons]
    omega

theorem sum_opLengths_le {n : ℕ} : ∀ {ops : List ScriptOp}, (∀ op ∈ ops, op.vch.length ≤ n) →
    (ops.map fun op => 5 + op.vch.length).sum ≤ ops.length * (5 + n)
  | [], _ => Nat.zero_le _
  | op :: ops, h => by
    rw [List.forall_mem_cons] at h
    have hle := sum_opLengths_le h.2
    rw [List.map_cons, List.sum_cons, List.length_cons, Nat.succ_mul]
    omega

theorem length_le_of_getOps_le {n : ℕ} {ops : List ScriptOp} {pc : Bytes} (h : getOps pc = some ops)
    (hops : ∀ op ∈ ops, op.vch.length ≤ n) : pc.length ≤ ops.length * (5 + n) :=
  (length_le_of_getOps h).trans (sum_opLengths_le hops)

/-- An opcode above the pushes has no data. -/
theorem opcode_le_of_vch_ne_nil {pc pc' : Bytes} {op : ScriptOp} (hop : getOp2 pc = (some op, pc'))
    (h : op.vch ≠ []) : op.opcode ≤ OP_PUSHDATA4 := by
  match pc, hop with
  | opcode :: pc, hop =>
    rw [getOp2] at hop
    split at hop
    · rename_i hle
      split at hop
      · cases hop
      rw [(getPushData_eq_append hop).1]
      exact hle
    · cases hop
      exact absurd rfl h

/-! ## Deleting a push -/

theorem findAndDeleteFrom_of_not_mem {b : Bytes} (hb : b.length < 2 ^ 32) :
    ∀ {ops : List ScriptOp} {pc : Bytes}, getOps pc = some ops → pushOp b ∉ ops →
      (findAndDeleteFrom (pushVector b) pc).1 = pc
  | [], pc, h, _ => by rw [getOps_eq_nil.mp h, findAndDeleteFrom_nil]
  | op :: ops, pc, h, hnot => by
    obtain ⟨pc', hop, hrest⟩ := getOps_eq_cons.mp h
    have hprefix : ¬(pushVector b ≠ [] ∧ List.isPrefixOf (pushVector b) pc) := by
      rintro ⟨-, hprefix⟩
      obtain ⟨rest, rfl⟩ := List.isPrefixOf_iff_prefix.mp hprefix
      rw [(getOp2_pushOp hb rest).2] at hop
      cases hop
      exact hnot List.mem_cons_self
    rw [findAndDeleteFrom, dif_neg hprefix]
    split
    · rfl
    · rename_i heq
      rw [hop] at heq
      cases heq
      obtain ⟨data, hpc, -⟩ := getOp2_eq_append hop
      dsimp only
      rw [findAndDeleteFrom_of_not_mem hb hrest fun hmem => hnot (List.mem_cons_of_mem _ hmem), hpc,
        ← List.cons_append, bytesBetween_append]

/-- A vector that the script does not push is not found. -/
theorem findAndDelete_of_not_mem {b script : Bytes} {ops : List ScriptOp} (hb : b.length < 2 ^ 32)
    (h : getOps script = some ops) (hnot : pushOp b ∉ ops) :
    (findAndDelete script (pushVector b)).1 = script := by
  rw [findAndDelete]
  split
  · rfl
  · exact findAndDeleteFrom_of_not_mem hb h hnot

/-! ## Runs -/

variable (check : SigCheck → Eval Bool) (hashes : ScriptHashes)

/-- The state that a run leaves from a position on. -/
def evalFrom (pc : Bytes) (st : EvalState) : Eval EvalState :=
  (Tape.run opReader .returnFalse (evalOp check hashes) pc st).1

section

variable {check : SigCheck → Eval Bool} {hashes : ScriptHashes} {pc pc' code : Bytes} {op : ScriptOp}
  {stack : Stack} {n : ℕ}

theorem evalFrom_nil (st : EvalState) : evalFrom check hashes [] st = .ok st := by
  rw [evalFrom, Tape.run_nil]

theorem evalFrom_of_ok {st st' : EvalState} (hop : getOp2 pc = (some op, pc'))
    (h : (evalOp check hashes op pc' st).1 = .ok st') :
    evalFrom check hashes pc st = evalFrom check hashes pc' st' :=
  Tape.run_fst_of_ok hop h

theorem limitSize_of_le {st : EvalState} (h : st.stack.length + st.altstack.length ≤ 1000) :
    limitSize st = .ok st := by
  rw [limitSize, if_neg (not_lt.mpr h)]

/-- An operation that is not counted : a push or a number. -/
theorem evalOp_of_le {st st' : EvalState} (hop : op.opcode ≤ OP_16)
    (hsize : op.vch.length ≤ MAX_SCRIPT_ELEMENT_SIZE) (h : (dispatch check hashes op pc st).1 = .ok st')
    (hroom : st'.stack.length + st'.altstack.length ≤ 1000) :
    (evalOp check hashes op pc st).1 = .ok st' := by
  have hnot : ¬op.opcode > OP_16 := UInt8.not_lt.mpr hop
  have hcount : countOp op.opcode st = st := by rw [countOp, if_neg hnot]
  have henabled : ¬isDisabled op.opcode = true := by
    intro hdisabled
    have hdis : ∀ opcode ∈ [OP_CAT, OP_SUBSTR, OP_LEFT, OP_RIGHT, OP_INVERT, OP_AND, OP_OR, OP_XOR,
        OP_2MUL, OP_2DIV, OP_MUL, OP_DIV, OP_MOD, OP_LSHIFT, OP_RSHIFT], ¬opcode ≤ OP_16 := by
      decide +kernel
    exact hdis _ (List.contains_iff_mem.mp hdisabled) hop
  rw [evalOp, if_neg (not_lt.mpr hsize), if_neg fun h' => hnot h'.1, if_neg henabled, hcount]
  dsimp only
  rw [h]
  exact limitSize_of_le hroom

theorem evalFrom_push (hop : getOp2 pc = (some op, pc')) (hpush : op.opcode ≤ OP_PUSHDATA4)
    (hsize : op.vch.length ≤ MAX_SCRIPT_ELEMENT_SIZE) (hroom : stack.length < 1000) :
    evalFrom check hashes pc ⟨stack, [], [], n, code⟩ =
      evalFrom check hashes pc' ⟨op.vch :: stack, [], [], n, code⟩ := by
  refine evalFrom_of_ok hop (evalOp_of_le (UInt8.le_trans hpush (by decide)) hsize ?_ ?_)
  · rw [dispatch]
    dsimp only
    rw [if_pos ⟨rfl, hpush⟩]
  · exact hroom

/-- Operations that push their data. -/
theorem evalFrom_pushes {ops : List ScriptOp} : ∀ {pushes : List ScriptOp} {pc : Bytes} {stack : Stack},
    getOps pc = some (pushes ++ ops) →
    (∀ op ∈ pushes, op.opcode ≤ OP_PUSHDATA4 ∧ op.vch.length ≤ MAX_SCRIPT_ELEMENT_SIZE) →
    pushes.length + stack.length ≤ 1000 → ∃ pc', getOps pc' = some ops ∧
      evalFrom check hashes pc ⟨stack, [], [], n, code⟩ =
        evalFrom check hashes pc' ⟨(pushes.map ScriptOp.vch).reverse ++ stack, [], [], n, code⟩
  | [], pc, _, hops, _, _ => ⟨pc, hops, rfl⟩
  | op :: pushes, pc, stack, hops, hpushes, hroom => by
    obtain ⟨pc', hop, hrest⟩ := getOps_eq_cons.mp hops
    rw [List.forall_mem_cons] at hpushes
    rw [List.length_cons] at hroom
    have hroom' : pushes.length + (op.vch :: stack).length ≤ 1000 := by
      rw [List.length_cons]
      omega
    obtain ⟨pc'', hops', heq⟩ := evalFrom_pushes hrest hpushes.2 hroom'
    refine ⟨pc'', hops', ?_⟩
    rw [evalFrom_push hop hpushes.1.1 hpushes.1.2 (by omega), heq, List.map_cons, List.reverse_cons,
      List.append_assoc]
    rfl

/-- An operation that pushes a small integer. -/
theorem evalFrom_smallInteger {k : UInt8} (hop : getOp2 pc = (some op, pc')) (hk : IsSmallInteger op k)
    (hroom : stack.length < 1000) : ∃ vch, CScriptNum.ofVch vch = .ok (k.toNat : ℤ) ∧
      evalFrom check hashes pc ⟨stack, [], [], n, code⟩ =
        evalFrom check hashes pc' ⟨vch :: stack, [], [], n, code⟩ := by
  have hnil := vch_of_smallInteger hop hk
  rcases hk with ⟨hzero, rfl⟩ | ⟨⟨hlo, hhi⟩, rfl⟩
  · refine ⟨[], rfl, ?_⟩
    rw [evalFrom_push hop (by rw [hzero]; decide) (by rw [hnil]; exact Nat.zero_le _) hroom, hnil]
  · have hnot : ¬op.opcode ≤ OP_PUSHDATA4 := fun hle => absurd (UInt8.le_trans hlo hle) (by decide)
    have hlo' := UInt8.le_iff_toNat_le.mp hlo
    have hhi' := UInt8.le_iff_toNat_le.mp hhi
    rw [show OP_1.toNat = 81 from rfl] at hlo'
    rw [show OP_16.toNat = 96 from rfl] at hhi'
    have hnum : (op.opcode - (OP_1 - 1)).toNat = op.opcode.toNat - 80 := by
      rw [UInt8.toNat_sub_of_le _ _ (UInt8.le_trans (show OP_1 - 1 ≤ OP_1 by decide) hlo)]
      rfl
    have hint : (op.opcode.toNat : ℤ) - ((OP_1.toNat : ℤ) - 1) = ((op.opcode.toNat - 80 : ℕ) : ℤ) := by
      rw [show (OP_1.toNat : ℤ) = 81 from rfl]
      omega
    obtain ⟨hserialize, hvch⟩ := CScriptNum.scriptNumSerialize_small
      (show 0 < op.opcode.toNat - 80 by omega) (show op.opcode.toNat - 80 < 128 by omega)
    refine ⟨[UInt8.ofNat (op.opcode.toNat - 80)], ?_, evalFrom_of_ok hop (evalOp_of_le hhi ?_ ?_ hroom)⟩
    · rw [CScriptNum.ofVch, if_neg (by rw [List.length_singleton]; decide), hvch, hnum]
    · rw [hnil]
      exact Nat.zero_le _
    · have hsig : ¬(op.opcode = OP_CHECKSIG ∨ op.opcode = OP_CHECKSIGVERIFY) := by
        rintro (heq | heq) <;> exact absurd (heq ▸ hhi) (by decide)
      have hmulti : ¬(op.opcode = OP_CHECKMULTISIG ∨ op.opcode = OP_CHECKMULTISIGVERIFY) := by
        rintro (heq | heq) <;> exact absurd (heq ▸ hhi) (by decide)
      have hpushes : pushesNumber op.opcode = true := by
        rw [pushesNumber, Bool.or_eq_true, Bool.and_eq_true]
        exact .inr ⟨decide_eq_true hlo, decide_eq_true hhi⟩
      rw [dispatch]
      dsimp only
      rw [if_neg fun h => hnot h.2, if_pos (.inl rfl), execOp, if_neg hsig, if_neg hmulti, execPlain,
        if_pos hpushes, hint, hserialize]

/-- Another opcode does what it executes. -/
theorem evalFrom_opcode {opcode : UInt8} {st' : EvalState} (hop : getOp2 pc = (some ⟨opcode, []⟩, pc'))
    (hgt : OP_16 < opcode) (henabled : isDisabled opcode = false) (hcount : n < 201)
    (h : (execOp check hashes true opcode pc' ⟨stack, [], [], n + 1, code⟩).1 = .ok st')
    (hroom : st'.stack.length + st'.altstack.length ≤ 1000) :
    evalFrom check hashes pc ⟨stack, [], [], n, code⟩ = evalFrom check hashes pc' st' := by
  refine evalFrom_of_ok hop ?_
  have hcountOp : countOp opcode ⟨stack, [], [], n, code⟩ = ⟨stack, [], [], n + 1, code⟩ := by
    rw [countOp, if_pos hgt]
  have hnot : ¬opcode ≤ OP_PUSHDATA4 := fun hle =>
    absurd (UInt8.lt_of_lt_of_le hgt hle) (by decide)
  rw [evalOp, if_neg (by exact Nat.not_lt_zero _), hcountOp, if_neg fun h' => absurd h'.2 (show ¬n + 1 > 201 by omega),
    if_neg (by rw [henabled]; exact Bool.false_ne_true)]
  dsimp only
  have hdispatch : (dispatch check hashes ⟨opcode, []⟩ pc' ⟨stack, [], [], n + 1, code⟩).1 = .ok st' := by
    rw [dispatch]
    dsimp only
    rw [if_neg fun h' => hnot h'.2, if_pos (.inl rfl)]
    exact h
  rw [hdispatch]
  exact limitSize_of_le hroom

/-- The last opcode of a script. -/
theorem evalFrom_last {opcode : UInt8} {st' : EvalState} (hops : getOps pc = some [⟨opcode, []⟩])
    (hgt : OP_16 < opcode) (henabled : isDisabled opcode = false) (hcount : n < 201)
    (h : ∀ pc', (execOp check hashes true opcode pc' ⟨stack, [], [], n + 1, code⟩).1 = .ok st')
    (hroom : st'.stack.length + st'.altstack.length ≤ 1000) :
    evalFrom check hashes pc ⟨stack, [], [], n, code⟩ = .ok st' := by
  obtain ⟨pc', hop, hrest⟩ := getOps_eq_cons.mp hops
  rw [evalFrom_opcode hop hgt henabled hcount (h pc') hroom, getOps_eq_nil.mp hrest, evalFrom_nil]

/-- A script that is run to its end. -/
theorem evalScript_of_evalFrom {script : Bytes} {st' : EvalState} (hlen : script.length ≤ 10000)
    (h : evalFrom check hashes script (.init stack script) = .ok st') (hclosed : st'.vfExec = []) :
    (evalScript check hashes stack script).1 = .ok st'.stack := by
  rw [evalFrom] at h
  rw [evalScript_fst, if_neg (not_lt.mpr hlen), evalLoop, h]
  change (if !st'.vfExec.isEmpty then _ else _) = _
  rw [hclosed]
  rfl

theorem length_pushVectors_le {vs : List Bytes}
    (hsize : ∀ v ∈ vs, v.length ≤ MAX_SCRIPT_ELEMENT_SIZE) (hlen : vs.length ≤ 19) :
    (vs.flatMap pushVector).length ≤ 10000 := by
  have hops := getOps_pushVectors getOps_nil hsize
  rw [List.append_nil (vs.flatMap pushVector)] at hops
  have hle := length_le_of_getOps_le hops (n := MAX_SCRIPT_ELEMENT_SIZE) (by simpa [pushOp] using hsize)
  rw [List.append_nil, List.length_map, MAX_SCRIPT_ELEMENT_SIZE] at hle
  omega

/-- A script that pushes vectors leaves them on the stack. -/
theorem evalScript_pushes {vs : List Bytes} (hsize : ∀ v ∈ vs, v.length ≤ MAX_SCRIPT_ELEMENT_SIZE)
    (hroom : vs.length + stack.length ≤ 1000) (hlen : (vs.flatMap pushVector).length ≤ 10000) :
    (evalScript check hashes stack (vs.flatMap pushVector)).1 = .ok (vs.reverse ++ stack) := by
  have hops := getOps_pushVectors getOps_nil hsize
  rw [List.append_nil (vs.flatMap pushVector)] at hops
  have hpushes : ∀ op ∈ vs.map pushOp, op.opcode ≤ OP_PUSHDATA4 ∧
      op.vch.length ≤ MAX_SCRIPT_ELEMENT_SIZE := by
    intro op hop
    obtain ⟨v, hv, rfl⟩ := List.mem_map.mp hop
    exact ⟨(getOp2_pushOp (lt_of_le_of_lt (hsize v hv) (by decide)) []).1, hsize v hv⟩
  have hroom' : (vs.map pushOp).length + stack.length ≤ 1000 := by rwa [List.length_map]
  obtain ⟨pc', hrest, heq⟩ : ∃ pc', getOps pc' = some [] ∧
      evalFrom check hashes (vs.flatMap pushVector) (.init stack (vs.flatMap pushVector)) = _ :=
    evalFrom_pushes hops hpushes hroom'
  rw [getOps_eq_nil.mp hrest, evalFrom_nil, List.map_map, show ScriptOp.vch ∘ pushOp = id from rfl,
    List.map_id] at heq
  exact evalScript_of_evalFrom hlen heq rfl

/-! ## VerifyScript -/

variable {flags : UInt32} {scriptSig scriptPubKey : Bytes} {stackCopy : Stack} {vch : Bytes}

theorem verifyScript_of_evalScript (hsig : (evalScript check hashes [] scriptSig).1 = .ok stackCopy)
    (heval : (evalScript check hashes stackCopy scriptPubKey).1 = .ok (vch :: stack))
    (htrue : castToBool vch = true) (hhash : isPayToScriptHash scriptPubKey = false) :
    (verifyScript check hashes flags scriptSig scriptPubKey).1 = .ok () := by
  have hneed : (evalScript check hashes stackCopy scriptPubKey).1.bind needTrue = .ok () := by
    rw [heval]
    exact if_pos htrue
  have hend : (!(hasFlag flags SCRIPT_VERIFY_P2SH && isPayToScriptHash scriptPubKey)) = true := by
    rw [hhash, Bool.and_false]
    rfl
  rw [verifyScript]
  dsimp only
  rw [hsig]
  dsimp only
  rw [hneed]
  dsimp only
  rw [if_pos hend]

/-! ## Scripts with several keys -/

/-- An operation of a script is read at some position. -/
theorem exists_getOp2_of_mem : ∀ {ops : List ScriptOp} {pc : Bytes}, getOps pc = some ops →
    ∀ {op : ScriptOp}, op ∈ ops → ∃ pc1 pc2, getOp2 pc1 = (some op, pc2)
  | [], _, _, _, hmem => absurd hmem List.not_mem_nil
  | op :: ops, pc, h, op', hmem => by
    obtain ⟨pc', hop, hrest⟩ := getOps_eq_cons.mp h
    rcases List.mem_cons.mp hmem with rfl | hmem
    · exact ⟨pc, pc', hop⟩
    · exact exists_getOp2_of_mem hrest hmem

theorem opcode_le_of_pubKeySize {script : Bytes} {ops : List ScriptOp} (hops : getOps script = some ops)
    (hmem : op ∈ ops) (hsize : PubKeySize op.vch) :
    op.opcode ≤ OP_PUSHDATA4 ∧ op.vch.length ≤ MAX_SCRIPT_ELEMENT_SIZE := by
  obtain ⟨pc1, pc2, hop⟩ := exists_getOp2_of_mem hops hmem
  refine ⟨opcode_le_of_vch_ne_nil hop ?_, hsize.2.trans (by decide)⟩
  intro hnil
  rw [PubKeySize, hnil] at hsize
  exact absurd hsize.1 (by decide)

theorem IsSmallInteger.le {k : UInt8} (h : IsSmallInteger op k) : k.toNat ≤ 16 := by
  rcases h with ⟨-, rfl⟩ | ⟨⟨hlo, hhi⟩, rfl⟩
  · exact Nat.zero_le _
  · have hhi' := UInt8.le_iff_toNat_le.mp hhi
    rw [UInt8.toNat_sub_of_le _ _ (UInt8.le_trans (show OP_1 - 1 ≤ OP_1 by decide) hlo)]
    rw [show OP_16.toNat = 96 from rfl] at hhi'
    rw [show (OP_1 - 1).toNat = 80 from rfl]
    omega

section

variable {script dummy : Bytes} {m k : UInt8} {keys : List ScriptOp} {sigs : List Bytes}

/-- There are at most 16 keys. -/
theorem CountsFit.le (hform : IsMultisigForm script m k keys) (h : CountsFit m k keys) :
    1 ≤ m.toNat ∧ m.toNat ≤ keys.length ∧ keys.length ≤ 16 := by
  obtain ⟨opM, opN, -, -, hN, -⟩ := hform
  obtain ⟨hm, hle, hkeys⟩ := h
  rw [hkeys]
  exact ⟨UInt8.le_iff_toNat_le.mp hm, UInt8.le_iff_toNat_le.mp hle, hN.le⟩

theorem IsMultisigForm.length_le (hform : IsMultisigForm script m k keys) (h : CountsFit m k keys) :
    script.length ≤ 10000 := by
  obtain ⟨-, -, hle16⟩ := h.le hform
  obtain ⟨opM, opN, hops, hM, hN, hkeys⟩ := hform
  have hsizes : ∀ op ∈ opM :: (keys ++ [opN, ⟨OP_CHECKMULTISIG, []⟩]), op.vch.length ≤ 65 := by
    intro op hop
    obtain ⟨pc1, pc2, hread⟩ := exists_getOp2_of_mem hops hop
    rw [List.mem_cons, List.mem_append, List.mem_pair] at hop
    rcases hop with rfl | hop | rfl | rfl
    · rw [vch_of_smallInteger hread hM]
      exact Nat.zero_le _
    · exact (hkeys op hop).2
    · rw [vch_of_smallInteger hread hN]
      exact Nat.zero_le _
    · exact Nat.zero_le _
  have hle := length_le_of_getOps_le hops hsizes
  rw [List.length_cons, List.length_append, List.length_cons, List.length_singleton] at hle
  omega

theorem dropSignatures_of_not_found (h : ∀ sig ∈ sigs, (findAndDelete script (pushVector sig)).1 = script) :
    dropSignatures sigs script = script := by
  rw [dropSignatures]
  refine List.foldlRecOn (motive := fun code => code = script) sigs _ rfl fun code hcode sig hsig => ?_
  rw [hcode]
  exact h sig hsig

/-- A script with several keys on as many signatures as it requires, and the element that is popped
too many. It succeeds if and only if the signatures are in the order of keys that they match, for
the script without them. -/
theorem evalScript_multisig_code (rel : Bytes → Bytes → Bool) (hform : IsMultisigForm script m k keys)
    (hcounts : CountsFit m k keys) (hsigs : sigs.length = m.toNat)
    (hcheck : ∀ sig ∈ sigs, ∀ key ∈ keys,
      check ⟨sig, key.vch, dropSignatures sigs.reverse script⟩ = .ok (rel sig key.vch)) :
    ∃ fSuccess : Bool, (fSuccess = true ↔ List.SublistForall₂ (fun sig key => rel sig key = true)
        sigs.reverse (keys.map ScriptOp.vch).reverse) ∧
      (evalScript check hashes (sigs.reverse ++ [dummy]) script).1 = .ok [boolVch fSuccess] := by
  obtain ⟨-, hle, hle16⟩ := hcounts.le hform
  have hlength := hform.length_le hcounts
  obtain ⟨opM, opN, hops, hM, hN, hkeys⟩ := hform
  have hlenSigs : (sigs.reverse ++ [dummy]).length = m.toNat + 1 := by
    rw [List.length_append, List.length_reverse, hsigs, List.length_singleton]
  have hlenKeys : (keys.map ScriptOp.vch).reverse.length = keys.length := by
    rw [List.length_reverse, List.length_map]
  -- the number of signatures, the keys and their number
  obtain ⟨pc1, hop1, hops1⟩ := getOps_eq_cons.mp hops
  obtain ⟨vchM, hvchM, hrun1⟩ : ∃ vch, _ ∧ evalFrom check hashes script
      (.init (sigs.reverse ++ [dummy]) script) = _ :=
    evalFrom_smallInteger hop1 hM (by omega)
  have hpushes := fun op (hop : op ∈ keys) =>
    opcode_le_of_pubKeySize hops1 (List.mem_append_left _ hop) (hkeys op hop)
  obtain ⟨pc2, hops2, hrun2⟩ : ∃ pc2, _ ∧ evalFrom check hashes pc1
      ⟨vchM :: (sigs.reverse ++ [dummy]), [], [], 0, script⟩ = _ :=
    evalFrom_pushes hops1 hpushes (by rw [List.length_cons]; omega)
  obtain ⟨pc3, hop3, hops3⟩ := getOps_eq_cons.mp hops2
  have hroom : ((keys.map ScriptOp.vch).reverse ++ vchM :: (sigs.reverse ++ [dummy])).length < 1000 := by
    rw [List.length_append, List.length_cons]
    omega
  obtain ⟨vchN, hvchN, hrun3⟩ : ∃ vch, _ ∧ evalFrom check hashes pc2
      ⟨(keys.map ScriptOp.vch).reverse ++ vchM :: (sigs.reverse ++ [dummy]), [], [], 0, script⟩ = _ :=
    evalFrom_smallInteger hop3 hN hroom
  -- the opcode
  have hcheckCode : ∀ sig ∈ sigs.reverse, ∀ key ∈ (keys.map ScriptOp.vch).reverse,
      check ⟨sig, key, dropSignatures sigs.reverse script⟩ = .ok (rel sig key) := by
    intro sig hsig key hkey
    obtain ⟨op, hmem, rfl⟩ := List.mem_map.mp (List.mem_reverse.mp hkey)
    exact hcheck sig (List.mem_reverse.mp hsig) op hmem
  have hsigs' : sigs.reverse.length = m.toNat := by rw [List.length_reverse, hsigs]
  have hkeys' : (keys.map ScriptOp.vch).reverse.length = k.toNat := hlenKeys.trans hcounts.2.2
  obtain ⟨fSuccess, hiff, hop⟩ : ∃ fSuccess : Bool, _ ∧ (opCheckMultiSig check false
      ⟨vchN :: ((keys.map ScriptOp.vch).reverse ++ vchM :: (sigs.reverse ++ dummy :: [])), [], [], 1,
        script⟩).1 = _ :=
    opCheckMultiSig_eq rel rfl (hkeys' ▸ hvchN) (hsigs' ▸ hvchM) (by omega) (by omega)
      (by dsimp only; omega) hcheckCode false
  have hlast : evalFrom check hashes pc3 _ = _ :=
    evalFrom_last hops3 (by decide) (by decide) (by decide) (fun _ => hop)
      (show 1 + 0 ≤ 1000 by decide)
  exact ⟨fSuccess, hiff, evalScript_of_evalFrom hlength
    (hrun1.trans (hrun2.trans (hrun3.trans hlast))) rfl⟩

/-- The same if no signature is in the script. -/
theorem evalScript_multisig (rel : Bytes → Bytes → Bool) (hform : IsMultisigForm script m k keys)
    (hcounts : CountsFit m k keys) (hsigs : sigs.length = m.toNat)
    (hpush : ∀ sig ∈ sigs, (findAndDelete script (pushVector sig)).1 = script)
    (hcheck : ∀ sig ∈ sigs, ∀ key ∈ keys, check ⟨sig, key.vch, script⟩ = .ok (rel sig key.vch)) :
    ∃ fSuccess : Bool, (fSuccess = true ↔ List.SublistForall₂ (fun sig key => rel sig key = true)
        sigs.reverse (keys.map ScriptOp.vch).reverse) ∧
      (evalScript check hashes (sigs.reverse ++ [dummy]) script).1 = .ok [boolVch fSuccess] := by
  have hcode : dropSignatures sigs.reverse script = script :=
    dropSignatures_of_not_found fun sig hsig => hpush sig (List.mem_reverse.mp hsig)
  exact evalScript_multisig_code rel hform hcounts hsigs (by rwa [hcode])

end

end

end Ticoin
