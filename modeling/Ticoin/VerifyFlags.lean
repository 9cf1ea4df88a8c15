import Ticoin.ScriptRuns

/-!
# script.cpp : verification under fewer flags

`SCRIPT_VERIFY_DERSIG` ends an evaluation where a signature is not encoded as it has to be.
`SCRIPT_VERIFY_STRICTENC` does not : the check fails, and a script can go on from there and ask for
it (`not_verifyScript_tightens`).

What is true under more flags is true under fewer of them unless this happens
(`verifyScript_tightens`). A `CHECKSIG` or `CHECKMULTISIG` that succeeds does so under fewer flags,
for `CHECKMULTISIG` since the signatures under fewer flags are never behind in the loop
(`checkKeys_true`). Where one fails, the checks it made have to come out the same.
-/

set_option linter.unusedSectionVars false

namespace Ticoin

open Codec EvalScript

/-! ## Two ways to check signatures -/

section

variable (check check' : SigCheck → Eval Bool)

/-- What the first accepts is accepted by the second, which fails at no signature that the first
gets past. -/
structure Weaker : Prop where
  accepts : ∀ {c : SigCheck}, check c = .ok true → check' c = .ok true
  ends : ∀ {c : SigCheck} {b : Bool}, check c = .ok b →
    ∀ vchPubKey, ∃ b', check' { c with vchPubKey := vchPubKey } = .ok b'

/-- A check comes out the same. -/
def SameResult (c : SigCheck) : Prop := ∀ b, check c = .ok b → check' c = .ok b

end

section

variable {check check' : SigCheck → Eval Bool} {stack : Stack} {scriptCode : Bytes}

/-! ## The loop of CHECKMULTISIG -/

section

variable {nKeysCount nSigsCount isig ikey : ℕ} {vchSig vchPubKey : Bytes} {fOk fSuccess : Bool}

/-- A pass of the loop checks a signature that is on the stack. -/
theorem checkKeys_reads
    (h : (checkKeys check stack scriptCode nKeysCount (nSigsCount + 1) isig ikey).1 =
      .ok fSuccess) :
    ∃ vchSig vchPubKey fOk, stacktop stack isig = .ok vchSig ∧ stacktop stack ikey = .ok vchPubKey ∧
      check ⟨vchSig, vchPubKey, scriptCode⟩ = .ok fOk := by
  rw [checkKeys] at h
  cases hsig : stacktop stack isig with
  | error e =>
    rw [hsig] at h
    cases h
  | ok vchSig =>
    cases hkey : stacktop stack ikey with
    | error e =>
      rw [hsig, hkey] at h
      cases h
    | ok vchPubKey =>
      rw [hsig, hkey] at h
      change (andThen (check ⟨vchSig, vchPubKey, scriptCode⟩) _).1 = _ at h
      cases hcheck : check ⟨vchSig, vchPubKey, scriptCode⟩ with
      | error e =>
        rw [hcheck] at h
        cases h
      | ok fOk => exact ⟨vchSig, vchPubKey, fOk, rfl, rfl, hcheck⟩

theorem checkKeys_last (hsig : stacktop stack isig = .ok vchSig)
    (hkey : stacktop stack ikey = .ok vchPubKey)
    (hcheck : check ⟨vchSig, vchPubKey, scriptCode⟩ = .ok fOk) :
    checkKeys check stack scriptCode 0 (nSigsCount + 1) isig ikey =
      (.ok false, [⟨vchSig, vchPubKey, scriptCode⟩]) := by
  rw [checkKeys, hsig, hkey]
  change andThen (check ⟨vchSig, vchPubKey, scriptCode⟩) _ = _
  rw [hcheck]
  rfl

theorem checkKeys_next (hsig : stacktop stack isig = .ok vchSig)
    (hkey : stacktop stack ikey = .ok vchPubKey)
    (hcheck : check ⟨vchSig, vchPubKey, scriptCode⟩ = .ok fOk) :
    checkKeys check stack scriptCode (nKeysCount + 1) (nSigsCount + 1) isig ikey =
      if (if fOk then nSigsCount else nSigsCount + 1) > nKeysCount then
        (.ok false, [⟨vchSig, vchPubKey, scriptCode⟩])
      else
        let r := checkKeys check stack scriptCode nKeysCount
          (if fOk then nSigsCount else nSigsCount + 1) (if fOk then isig + 1 else isig) (ikey + 1)
        (r.1, ⟨vchSig, vchPubKey, scriptCode⟩ :: r.2) := by
  rw [checkKeys, hsig, hkey]
  change andThen (check ⟨vchSig, vchPubKey, scriptCode⟩) _ = _
  rw [hcheck]
  rfl

/-- A loop that succeeds later does not stop here. -/
theorem checkKeys_goes_on (hsig : stacktop stack isig = .ok vchSig)
    (hkey : stacktop stack ikey = .ok vchPubKey)
    (hcheck : check ⟨vchSig, vchPubKey, scriptCode⟩ = .ok fOk)
    (h : (checkKeys check stack scriptCode (nKeysCount + 1) (nSigsCount + 1) isig ikey).1 =
      .ok true) :
    (if fOk then nSigsCount else nSigsCount + 1) ≤ nKeysCount ∧
      (checkKeys check stack scriptCode nKeysCount (if fOk then nSigsCount else nSigsCount + 1)
        (if fOk then isig + 1 else isig) (ikey + 1)).1 = .ok true := by
  rw [checkKeys_next hsig hkey hcheck] at h
  by_cases hleft : (if fOk then nSigsCount else nSigsCount + 1) > nKeysCount
  · rw [if_pos hleft] at h
    cases h
  · rw [if_neg hleft] at h
    exact ⟨not_lt.mp hleft, h⟩

end

/-- The loop goes the same way if the checks come out the same. -/
theorem checkKeys_same : ∀ {nKeysCount nSigsCount isig ikey : ℕ} {fSuccess : Bool},
    (checkKeys check stack scriptCode nKeysCount nSigsCount isig ikey).1 = .ok fSuccess →
    (∀ c ∈ (checkKeys check stack scriptCode nKeysCount nSigsCount isig ikey).2,
      SameResult check check' c) →
    (checkKeys check' stack scriptCode nKeysCount nSigsCount isig ikey).1 = .ok fSuccess
  | _, 0, _, _, _, h, _ => by
    rw [checkKeys] at h ⊢
    exact h
  | 0, nSigsCount + 1, isig, ikey, _, h, hsame => by
    obtain ⟨vchSig, vchPubKey, fOk, hsig, hkey, hcheck⟩ := checkKeys_reads h
    rw [checkKeys_last hsig hkey hcheck] at h hsame
    rw [checkKeys_last hsig hkey (hsame _ List.mem_cons_self _ hcheck)]
    exact h
  | nKeysCount + 1, nSigsCount + 1, isig, ikey, _, h, hsame => by
    obtain ⟨vchSig, vchPubKey, fOk, hsig, hkey, hcheck⟩ := checkKeys_reads h
    rw [checkKeys_next hsig hkey hcheck] at h hsame
    by_cases hleft : (if fOk then nSigsCount else nSigsCount + 1) > nKeysCount
    · rw [if_pos hleft] at h hsame
      rw [checkKeys_next hsig hkey (hsame _ List.mem_cons_self _ hcheck), if_pos hleft]
      exact h
    · rw [if_neg hleft] at h hsame
      rw [checkKeys_next hsig hkey (hsame _ List.mem_cons_self _ hcheck), if_neg hleft]
      exact checkKeys_same h fun c hc => hsame c (List.mem_cons_of_mem _ hc)

/-- Where the loop succeeds it got past every signature. -/
theorem checkKeys_sigs : ∀ {nKeysCount nSigsCount isig ikey : ℕ},
    (checkKeys check stack scriptCode nKeysCount nSigsCount isig ikey).1 = .ok true →
    ∀ k < nSigsCount, ∃ vchSig vchPubKey fOk, stacktop stack (isig + k) = .ok vchSig ∧
      check ⟨vchSig, vchPubKey, scriptCode⟩ = .ok fOk
  | _, 0, _, _, _, k, hk => absurd hk (Nat.not_lt_zero k)
  | 0, nSigsCount + 1, isig, ikey, h, _, _ => by
    obtain ⟨vchSig, vchPubKey, fOk, hsig, hkey, hcheck⟩ := checkKeys_reads h
    rw [checkKeys_last hsig hkey hcheck] at h
    cases h
  | nKeysCount + 1, nSigsCount + 1, isig, ikey, h, k, hk => by
    obtain ⟨vchSig, vchPubKey, fOk, hsig, hkey, hcheck⟩ := checkKeys_reads h
    obtain ⟨-, hrest⟩ := checkKeys_goes_on hsig hkey hcheck h
    cases fOk with
    | true =>
      cases k with
      | zero => exact ⟨vchSig, vchPubKey, true, hsig, hcheck⟩
      | succ k =>
        rw [← Nat.add_assoc, Nat.add_right_comm]
        exact checkKeys_sigs hrest k (Nat.succ_lt_succ_iff.mp hk)
    | false => exact checkKeys_sigs hrest k hk

/-- Where the loop succeeds, so does the loop with weaker checks. It is not behind : what is left of
the signatures is at most as much. -/
theorem checkKeys_true (hweak : Weaker check check') :
    ∀ {nKeysCount nSigsCount nSigsCount' isig isig' ikey : ℕ},
    (checkKeys check stack scriptCode nKeysCount nSigsCount isig ikey).1 = .ok true →
    nSigsCount' ≤ nSigsCount → isig' + nSigsCount' = isig + nSigsCount →
    (checkKeys check' stack scriptCode nKeysCount nSigsCount' isig' ikey).1 = .ok true
  | _, _, 0, _, _, _, _, _, _ => by rw [checkKeys]
  | 0, nSigsCount + 1, _ + 1, _, _, _, h, _, _ => by
    obtain ⟨vchSig, vchPubKey, fOk, hsig, hkey, hcheck⟩ := checkKeys_reads h
    rw [checkKeys_last hsig hkey hcheck] at h
    cases h
  | nKeysCount + 1, nSigsCount + 1, nSigsCount' + 1, isig, isig', ikey, h, hle, hsum => by
    obtain ⟨vchSig', vchPubKey', fOk'', hsig', hcheck'⟩ :=
      checkKeys_sigs h (isig' - isig) (by omega)
    rw [show isig + (isig' - isig) = isig' by omega] at hsig'
    obtain ⟨vchSig, vchPubKey, fOk, hsig, hkey, hcheck⟩ := checkKeys_reads h
    obtain ⟨fOk', hfOk'⟩ := hweak.ends hcheck' vchPubKey
    obtain ⟨hleft, hrest⟩ := checkKeys_goes_on hsig hkey hcheck h
    -- a signature that only the first loop gets past is one the second got past before
    have hbehind : fOk = true → fOk' = false → nSigsCount' < nSigsCount := by
      rintro rfl rfl
      by_contra hge
      obtain rfl : isig' = isig := by omega
      rw [hsig] at hsig'
      cases hsig'
      rw [hweak.accepts hcheck] at hfOk'
      cases hfOk'
    have hleft' : (if fOk' then nSigsCount' else nSigsCount' + 1) ≤
        if fOk then nSigsCount else nSigsCount + 1 := by
      cases fOk <;> cases fOk' <;> simp at hbehind ⊢ <;> omega
    rw [checkKeys_next hsig' hkey hfOk', if_neg (not_lt.mpr (hleft'.trans hleft))]
    refine checkKeys_true hweak hrest hleft' ?_
    cases fOk <;> cases fOk' <;> simp <;> omega
  | _ , 0, _ + 1, _, _, _, _, hle, _ => absurd hle (Nat.not_succ_le_zero _)

/-! ## The opcodes that check signatures -/

section

variable {fVerify fValue : Bool} {stack' : Stack} {st st' : EvalState} {opcode : UInt8}
  {hashes : ScriptHashes} {op : ScriptOp} {fExec : Bool} {pc script : Bytes}

/-- A result that is false does not verify, and is left on the stack otherwise. -/
theorem verify_eq_ok (h : verify fVerify fValue (boolVch fValue :: stack) = .ok stack') :
    fValue = true ∨ fVerify = false ∧ stack'.head? = some vchFalse := by
  cases fValue with
  | true => exact .inl rfl
  | false =>
    cases fVerify with
    | true => cases h
    | false =>
      cases h
      exact .inr ⟨rfl, rfl⟩

theorem onStack_eq_ok {f : Stack → Eval Stack} (h : onStack f st = .ok st') :
    ∃ stack', f st.stack = .ok stack' ∧ st'.stack = stack' := by
  obtain ⟨stack', hf, hst⟩ := Eval.bind_eq_ok.mp h
  cases hst
  exact ⟨stack', hf, rfl⟩

theorem opCheckSig_weaker (hweak : Weaker check check')
    (h : (opCheckSig check fVerify st).1 = .ok st')
    (hfalse : fVerify = false → st'.stack.head? = some vchFalse →
      ∀ c ∈ (opCheckSig check fVerify st).2, SameResult check check' c) :
    (opCheckSig check' fVerify st).1 = .ok st' := by
  unfold opCheckSig at h hfalse ⊢
  generalize (do
    need 2 st.stack
    let vchSig ← stacktop st.stack 2
    let vchPubKey ← stacktop st.stack 1
    return ⟨vchSig, vchPubKey, (findAndDelete st.pbegincodehash (pushVector vchSig)).1⟩ :
      Eval SigCheck) = x at h hfalse ⊢
  cases x with
  | error e => cases h
  | ok c =>
    dsimp only [andThen] at h hfalse ⊢
    cases hcheck : check c with
    | error e =>
      rw [hcheck] at h
      cases h
    | ok fSuccess =>
      rw [hcheck] at h hfalse
      dsimp only at h hfalse
      have hsame : check' c = .ok fSuccess := by
        obtain ⟨stack', hf, rfl⟩ := onStack_eq_ok h
        obtain ⟨stack₁, -, hverify⟩ := Eval.bind_eq_ok.mp hf
        obtain ⟨stack₂, -, hverify⟩ := Eval.bind_eq_ok.mp hverify
        rcases verify_eq_ok hverify with rfl | ⟨hnot, htop⟩
        · exact hweak.accepts hcheck
        · exact hfalse hnot htop c List.mem_cons_self _ hcheck
      rw [hsame]
      exact h

theorem opCheckMultiSig_weaker (hweak : Weaker check check')
    (h : (opCheckMultiSig check fVerify st).1 = .ok st')
    (hfalse : fVerify = false → st'.stack.head? = some vchFalse →
      ∀ c ∈ (opCheckMultiSig check fVerify st).2, SameResult check check' c) :
    (opCheckMultiSig check' fVerify st).1 = .ok st' := by
  unfold opCheckMultiSig at h hfalse ⊢
  generalize (do
    let nKeysCount ← countAt st.stack 1 20
    if st.nOpCount + nKeysCount > 201 then throw .returnFalse
    else
      let nSigsCount ← countAt st.stack (2 + nKeysCount) nKeysCount
      need (3 + nKeysCount + nSigsCount) st.stack
      let scriptCode ← deleteSigs st.stack (3 + nKeysCount) nSigsCount st.pbegincodehash
      return (nKeysCount, nSigsCount, scriptCode) : Eval (ℕ × ℕ × Bytes)) = x at h hfalse ⊢
  cases x with
  | error e => cases h
  | ok args =>
    obtain ⟨nKeysCount, nSigsCount, scriptCode⟩ := args
    dsimp only [andThen] at h hfalse ⊢
    obtain ⟨fSuccess, hloop, hrest⟩ := Eval.bind_eq_ok.mp h
    have hsame : (checkKeys check' st.stack scriptCode nKeysCount nSigsCount (3 + nKeysCount) 2).1 =
        .ok fSuccess := by
      obtain ⟨stack', hf, rfl⟩ := onStack_eq_ok hrest
      obtain ⟨stack₁, -, hverify⟩ := Eval.bind_eq_ok.mp hf
      rcases verify_eq_ok hverify with rfl | ⟨hnot, htop⟩
      · exact checkKeys_true hweak hloop le_rfl rfl
      · exact checkKeys_same hloop (hfalse hnot htop)
    rw [hsame]
    exact hrest

theorem execOp_weaker (hweak : Weaker check check')
    (h : (execOp check hashes fExec opcode pc st).1 = .ok st')
    (hfalse : opcode = OP_CHECKSIG ∨ opcode = OP_CHECKMULTISIG → st'.stack.head? = some vchFalse →
      ∀ c ∈ (execOp check hashes fExec opcode pc st).2, SameResult check check' c) :
    (execOp check' hashes fExec opcode pc st).1 = .ok st' := by
  unfold execOp at h hfalse ⊢
  by_cases hsig : opcode = OP_CHECKSIG ∨ opcode = OP_CHECKSIGVERIFY
  · rw [if_pos hsig] at h hfalse ⊢
    refine opCheckSig_weaker hweak h fun hnot => hfalse (.inl ?_)
    exact hsig.resolve_right (of_decide_eq_false hnot)
  · rw [if_neg hsig] at h hfalse ⊢
    by_cases hmulti : opcode = OP_CHECKMULTISIG ∨ opcode = OP_CHECKMULTISIGVERIFY
    · rw [if_pos hmulti] at h hfalse ⊢
      refine opCheckMultiSig_weaker hweak h fun hnot => hfalse (.inr ?_)
      exact hmulti.resolve_right (of_decide_eq_false hnot)
    · rw [if_neg hmulti] at h ⊢
      exact h

/-! ## Evaluations -/

/-- The limits of an operation do not ask how signatures are checked. -/
theorem evalOp_of_ok (h : (evalOp check hashes op pc st).1 = .ok st')
    (check' : SigCheck → Eval Bool) :
    evalOp check' hashes op pc st =
      ((dispatch check' hashes op pc (countOp op.opcode st)).1.bind limitSize,
        (dispatch check' hashes op pc (countOp op.opcode st)).2) := by
  unfold evalOp at h ⊢
  split at h
  · cases h
  rename_i hsize
  split at h
  · cases h
  rename_i hcount
  split at h
  · cases h
  rename_i henabled
  rw [if_neg hsize, if_neg hcount, if_neg henabled]

theorem evalOp_weaker (hweak : Weaker check check')
    (h : (evalOp check hashes op pc st).1 = .ok st')
    (hfalse : op.opcode = OP_CHECKSIG ∨ op.opcode = OP_CHECKMULTISIG →
      st'.stack.head? = some vchFalse →
      ∀ c ∈ (evalOp check hashes op pc st).2, SameResult check check' c) :
    (evalOp check' hashes op pc st).1 = .ok st' := by
  have heq := evalOp_of_ok h
  have hdispatch := evalOp_ok h
  rw [heq check] at h hfalse
  rw [heq check']
  have hsame : (dispatch check' hashes op pc (countOp op.opcode st)).1 = .ok st' := by
    unfold dispatch at hdispatch hfalse ⊢
    generalize countOp op.opcode st = s at hdispatch hfalse ⊢
    dsimp only at hdispatch hfalse ⊢
    split
    · rename_i hpush
      rw [if_pos hpush] at hdispatch
      exact hdispatch
    rename_i hpush
    rw [if_neg hpush] at hdispatch hfalse
    split
    · rename_i hexec
      rw [if_pos hexec] at hdispatch hfalse
      exact execOp_weaker hweak hdispatch hfalse
    · rename_i hexec
      rw [if_neg hexec] at hdispatch
      exact hdispatch
  dsimp only at h ⊢
  rw [hdispatch] at h
  rw [hsame]
  exact h

/-- An operation that an evaluation executes, with the script after it and the state before. -/
def Executes (check : SigCheck → Eval Bool) (hashes : ScriptHashes) (stack : Stack) (script : Bytes)
    (op : ScriptOp) (pc : Bytes) (st : EvalState) : Prop :=
  ∃ pc₀, Tape.Reached opReader (evalOp check hashes) script (.init stack script) pc₀ st ∧
    getOp2 pc₀ = (some op, pc)

/-- An evaluation that ends does so with weaker checks, if the checks come out the same where they
leave false on the stack. -/
theorem evalScript_weaker (hweak : Weaker check check')
    (h : (evalScript check hashes stack script).1 = .ok stack')
    (hsame : ∀ op pc st st', Executes check hashes stack script op pc st →
      op.opcode = OP_CHECKSIG ∨ op.opcode = OP_CHECKMULTISIG →
      (evalOp check hashes op pc st).1 = .ok st' → st'.stack.head? = some vchFalse →
      ∀ c ∈ (evalOp check hashes op pc st).2, SameResult check check' c) :
    (evalScript check' hashes stack script).1 = .ok stack' := by
  rw [evalScript_fst] at h ⊢
  split at h
  · cases h
  rename_i hlen
  rw [if_neg hlen]
  have hloop : ∃ st, (evalLoop check hashes stack script).1 = .ok st := by
    rcases hrun : (evalLoop check hashes stack script).1 with e | st
    · rw [hrun] at h
      cases e <;> cases h
    · exact ⟨st, rfl⟩
  obtain ⟨st, hst⟩ := hloop
  have hst' : (evalLoop check' hashes stack script).1 = .ok st := by
    refine Tape.run_refines (fun {op pc₁ pc₂ s₁ s₂} hreach hop hexec => ?_) hst
    exact evalOp_weaker hweak hexec fun hopcode htop =>
      hsame op pc₂ s₁ s₂ ⟨pc₁, hreach, hop⟩ hopcode hexec htop
  rw [hst] at h
  rw [hst']
  exact h

end

end

/-! ## Flags -/

/-- The flags that are set where blocks and transactions are checked. -/
def verifyFlagsMask : UInt32 :=
  SCRIPT_VERIFY_P2SH ||| SCRIPT_VERIFY_STRICTENC ||| SCRIPT_VERIFY_DERSIG

section

variable {F G flag : UInt32} {checkSig : SigCheck → Bool} {c : SigCheck} {b : Bool}

theorem hasFlag_of_or_eq (h : G ||| F = F) (hflag : hasFlag G flag = true) :
    hasFlag F flag = true := by
  unfold hasFlag at hflag ⊢
  rw [bne_iff_ne] at hflag ⊢
  intro hzero
  have hor : (G ||| F) &&& flag = (G &&& flag) ||| (F &&& flag) :=
    UInt32.toBitVec_inj.mp BitVec.and_or_distrib_right
  rw [h, hzero] at hor
  exact hflag (UInt32.or_eq_zero_iff.mp hor.symm).1

theorem isCanonical_eq_some (c : SigCheck) (flags : UInt32) :
    ∃ b, isCanonical flags c = some b := by
  obtain ⟨sig, hsig, -⟩ := isCanonicalSignature_decides c.vchSig flags
  obtain ⟨key, hkey⟩ := isCanonicalPubKey_eq_some c.vchPubKey flags
  unfold isCanonical
  rw [hsig, hkey]
  cases sig
  · exact ⟨_, rfl⟩
  · exact ⟨_, rfl⟩

/-- What a check comes to, past the encoding of the signature. -/
theorem checkSignature_eq_ok : checkSignature checkSig F c = .ok b ↔
    checkSignatureEncoding c.vchSig F = some true ∧
      ∃ canonical, isCanonical F c = some canonical ∧ b = (canonical && checkSig c) := by
  obtain ⟨encoded, hencoded, -⟩ := checkSignatureEncoding_decides c.vchSig F
  obtain ⟨canonical, hcanonical⟩ := isCanonical_eq_some c F
  have hex : ∀ {P : Bool → Prop}, (∃ b, some canonical = some b ∧ P b) ↔ P canonical :=
    ⟨fun ⟨_, hb, h⟩ => Option.some.inj hb ▸ h, fun h => ⟨_, rfl, h⟩⟩
  unfold checkSignature
  rw [hencoded, hcanonical, hex]
  cases encoded with
  | false => exact iff_of_false nofun fun h => by cases h.1
  | true =>
    cases canonical with
    | false => exact ⟨fun h => ⟨rfl, (Except.ok.inj h).symm⟩, fun h => congrArg Except.ok h.2.symm⟩
    | true => exact ⟨fun h => ⟨rfl, (Except.ok.inj h).symm⟩, fun h => congrArg Except.ok h.2.symm⟩

/-- `EVEN_S` is not among the flags. -/
theorem hasFlag_evenS (hF : F ||| verifyFlagsMask = verifyFlagsMask) :
    hasFlag F SCRIPT_VERIFY_EVEN_S = false := by
  rw [← Bool.not_eq_true]
  exact fun h => absurd (hasFlag_of_or_eq hF h) (by decide)

theorem isCanonical_of_not_strictenc (h : hasFlag G SCRIPT_VERIFY_STRICTENC = false)
    (c : SigCheck) :
    isCanonical G c = some true := by
  unfold isCanonical isCanonicalSignature isCanonicalPubKey
  rw [h]
  rfl

/-- Which signatures and keys are canonical, two of the flags say. -/
theorem isCanonical_congr
    (hstrict : hasFlag G SCRIPT_VERIFY_STRICTENC = hasFlag F SCRIPT_VERIFY_STRICTENC)
    (heven : hasFlag G SCRIPT_VERIFY_EVEN_S = hasFlag F SCRIPT_VERIFY_EVEN_S) (c : SigCheck) :
    isCanonical G c = isCanonical F c := by
  unfold isCanonical isCanonicalSignature isCanonicalPubKey
  rw [hstrict, heven]

theorem checkSignatureEncoding_of_fewer (hG : G ||| F = F) {vchSig : Bytes}
    (h : checkSignatureEncoding vchSig F = some true) :
    checkSignatureEncoding vchSig G = some true := by
  obtain ⟨b, hb, hiff⟩ := checkSignatureEncoding_decides vchSig F
  obtain ⟨b', hb', hiff'⟩ := checkSignatureEncoding_decides vchSig G
  rw [h, Option.some.injEq] at hb
  subst hb
  rw [hb', hiff'.mpr ((hiff.mp rfl).imp id fun hder hflag => hder (hasFlag_of_or_eq hG hflag))]

/-- Fewer flags check the same, or ask for no encodings of `STRICTENC`. -/
theorem isCanonical_of_fewer (hF : F ||| verifyFlagsMask = verifyFlagsMask) (hG : G ||| F = F)
    (c : SigCheck) : isCanonical G c = isCanonical F c ∨
      (hasFlag F SCRIPT_VERIFY_STRICTENC = true ∧ hasFlag G SCRIPT_VERIFY_STRICTENC = false) ∧
        isCanonical G c = some true := by
  have hG' : G ||| verifyFlagsMask = verifyFlagsMask := by
    rw [← hF, ← UInt32.or_assoc, hG]
  have heven := (hasFlag_evenS hG').trans (hasFlag_evenS hF).symm
  cases hstrictG : hasFlag G SCRIPT_VERIFY_STRICTENC with
  | true =>
    have hstrictF := hasFlag_of_or_eq hG hstrictG
    exact .inl (isCanonical_congr (hstrictG.trans hstrictF.symm) heven c)
  | false =>
    cases hstrictF : hasFlag F SCRIPT_VERIFY_STRICTENC with
    | true => exact .inr ⟨⟨rfl, rfl⟩, isCanonical_of_not_strictenc hstrictG c⟩
    | false => exact .inl (isCanonical_congr (hstrictG.trans hstrictF.symm) heven c)

theorem checkSignature_weaker (checkSig : SigCheck → Bool)
    (hF : F ||| verifyFlagsMask = verifyFlagsMask) (hG : G ||| F = F) :
    Weaker (checkSignature checkSig F) (checkSignature checkSig G) where
  accepts {c} h := by
    obtain ⟨hencoding, canonical, hcanonical, hb⟩ := checkSignature_eq_ok.mp h
    rw [eq_comm, Bool.and_eq_true] at hb
    obtain ⟨rfl, hcheck⟩ := hb
    refine checkSignature_eq_ok.mpr ⟨checkSignatureEncoding_of_fewer hG hencoding, true, ?_, ?_⟩
    · rcases isCanonical_of_fewer hF hG c with heq | ⟨-, htrue⟩
      · rw [heq, hcanonical]
      · exact htrue
    · rw [hcheck]
      rfl
  ends {c _} h vchPubKey := by
    obtain ⟨hencoding, -⟩ := checkSignature_eq_ok.mp h
    obtain ⟨canonical, hcanonical⟩ := isCanonical_eq_some { c with vchPubKey := vchPubKey } G
    exact ⟨_, checkSignature_eq_ok.mpr
      ⟨checkSignatureEncoding_of_fewer hG hencoding, canonical, hcanonical, rfl⟩⟩

/-- A check comes out the same unless only `STRICTENC` fails it. -/
theorem checkSignature_same (hF : F ||| verifyFlagsMask = verifyFlagsMask) (hG : G ||| F = F)
    (h : hasFlag F SCRIPT_VERIFY_STRICTENC = true → hasFlag G SCRIPT_VERIFY_STRICTENC = false →
      ¬(isCanonical F c = some false ∧ checkSig c = true)) :
    SameResult (checkSignature checkSig F) (checkSignature checkSig G) c := by
  intro b hb
  obtain ⟨hencoding, canonical, hcanonical, rfl⟩ := checkSignature_eq_ok.mp hb
  refine checkSignature_eq_ok.mpr ⟨checkSignatureEncoding_of_fewer hG hencoding, ?_⟩
  rcases isCanonical_of_fewer hF hG c with heq | ⟨⟨hstrictF, hstrictG⟩, htrue⟩
  · exact ⟨canonical, heq.trans hcanonical, rfl⟩
  · refine ⟨true, htrue, ?_⟩
    cases canonical with
    | true => rfl
    | false =>
      cases hcheck : checkSig c with
      | false => rfl
      | true => exact absurd ⟨hcanonical, hcheck⟩ (h hstrictF hstrictG)

end

/-! ## VerifyScript -/

section

variable {check : SigCheck → Eval Bool} {hashes : ScriptHashes} {flags : UInt32}
  {scriptSig scriptPubKey : Bytes}

/-- When `VerifyScript` returns true. -/
theorem verifyScript_eq_ok : (verifyScript check hashes flags scriptSig scriptPubKey).1 = .ok () ↔
    ∃ stackCopy, (evalScript check hashes [] scriptSig).1 = .ok stackCopy ∧
      (evalScript check hashes stackCopy scriptPubKey).1.bind needTrue = .ok () ∧
      ((hasFlag flags SCRIPT_VERIFY_P2SH && isPayToScriptHash scriptPubKey) = true →
        isPushOnly scriptSig = true ∧ ∃ pubKey2 stack, stackCopy = pubKey2 :: stack ∧
          (evalScript check hashes stack pubKey2).1.bind needTrue = .ok ()) := by
  unfold verifyScript
  dsimp only
  cases hsig : (evalScript check hashes [] scriptSig).1 with
  | error e => exact iff_of_false nofun nofun
  | ok stackCopy =>
    dsimp only
    have hex : ∀ {P : Stack → Prop},
        (∃ s, (Except.ok stackCopy : Eval Stack) = .ok s ∧ P s) ↔ P stackCopy :=
      ⟨fun ⟨_, hs, h⟩ => Except.ok.inj hs ▸ h, fun h => ⟨_, rfl, h⟩⟩
    rw [hex]
    cases (evalScript check hashes stackCopy scriptPubKey).1.bind needTrue with
    | error e => exact iff_of_false nofun fun h => by cases h.1
    | ok u =>
      dsimp only
      cases hasFlag flags SCRIPT_VERIFY_P2SH && isPayToScriptHash scriptPubKey with
      | false => exact iff_of_true rfl ⟨rfl, nofun⟩
      | true =>
        rw [if_neg (by decide)]
        cases isPushOnly scriptSig with
        | false => exact iff_of_false nofun fun h => by cases (h.2 rfl).1
        | true =>
          cases stackCopy with
          | nil =>
            refine iff_of_false nofun fun h => ?_
            obtain ⟨-, _, _, hnil, -⟩ := h.2 rfl
            cases hnil
          | cons pubKey2 stack =>
            refine ⟨fun h => ⟨rfl, fun _ => ⟨rfl, pubKey2, stack, rfl, h⟩⟩, fun h => ?_⟩
            obtain ⟨-, _, _, hcons, hredeem⟩ := h.2 rfl
            cases hcons
            exact hredeem

end

/-- The evaluations that `VerifyScript` makes, by the stack at the start and the script. -/
inductive Evaluates (check : SigCheck → Eval Bool) (hashes : ScriptHashes) (flags : UInt32)
    (scriptSig scriptPubKey : Bytes) : Stack → Bytes → Prop
  | scriptSig : Evaluates check hashes flags scriptSig scriptPubKey [] scriptSig
  | scriptPubKey {stackCopy : Stack}
    (h : (evalScript check hashes [] scriptSig).1 = .ok stackCopy) :
    Evaluates check hashes flags scriptSig scriptPubKey stackCopy scriptPubKey
  | pubKey2 {pubKey2 : Bytes} {stack : Stack}
    (h : (evalScript check hashes [] scriptSig).1 = .ok (pubKey2 :: stack))
    (hhash : (hasFlag flags SCRIPT_VERIFY_P2SH && isPayToScriptHash scriptPubKey) = true) :
    Evaluates check hashes flags scriptSig scriptPubKey stack pubKey2

/-- A `CHECKSIG` or `CHECKMULTISIG` leaves false on the stack after a check that `CheckSig` would
pass, and that fails only since the signature or the public key is not canonical. -/
def FailsNotCanonical (checkSig : SigCheck → Bool) (hashes : ScriptHashes) (flags : UInt32)
    (op : ScriptOp) (pc : Bytes) (st : EvalState) : Prop :=
  (op.opcode = OP_CHECKSIG ∨ op.opcode = OP_CHECKMULTISIG) ∧
  (∃ st', (evalOp (checkSignature checkSig flags) hashes op pc st).1 = .ok st' ∧
    st'.stack.head? = some vchFalse) ∧
  ∃ c ∈ (evalOp (checkSignature checkSig flags) hashes op pc st).2,
    isCanonical flags c = some false ∧ checkSig c = true

/-- What `VerifyScript` finds true under some of the flags it finds true under fewer of them. Where
`STRICTENC` is dropped, no operation executed may have failed for an encoding alone. -/
theorem verifyScript_tightens (checkSig : SigCheck → Bool) (hashes : ScriptHashes) (F G : UInt32)
    (hF : F ||| verifyFlagsMask = verifyFlagsMask) (hG : G ||| F = F)
    (scriptSig scriptPubKey : Bytes)
    (hstrict :
      hasFlag F SCRIPT_VERIFY_STRICTENC = true → hasFlag G SCRIPT_VERIFY_STRICTENC = false →
      ∀ stack script op pc st,
        Evaluates (checkSignature checkSig F) hashes F scriptSig scriptPubKey stack script →
        Executes (checkSignature checkSig F) hashes stack script op pc st →
        ¬FailsNotCanonical checkSig hashes F op pc st)
    (h : (verifyScript (checkSignature checkSig F) hashes F scriptSig scriptPubKey).1 = .ok ()) :
    (verifyScript (checkSignature checkSig G) hashes G scriptSig scriptPubKey).1 = .ok () := by
  have hweak := checkSignature_weaker checkSig hF hG
  have heval : ∀ {stack stack' : Stack} {script : Bytes},
      Evaluates (checkSignature checkSig F) hashes F scriptSig scriptPubKey stack script →
      (evalScript (checkSignature checkSig F) hashes stack script).1 = .ok stack' →
      (evalScript (checkSignature checkSig G) hashes stack script).1 = .ok stack' := by
    intro stack stack' script hevaluates hok
    refine evalScript_weaker hweak hok fun op pc st st' hexecutes hopcode hst htop c hc => ?_
    refine checkSignature_same hF hG fun hstrictF hstrictG hfails => ?_
    exact hstrict hstrictF hstrictG stack script op pc st hevaluates hexecutes
      ⟨hopcode, ⟨st', hst, htop⟩, c, hc, hfails⟩
  have hneed : ∀ {stack : Stack} {script : Bytes},
      Evaluates (checkSignature checkSig F) hashes F scriptSig scriptPubKey stack script →
      (evalScript (checkSignature checkSig F) hashes stack script).1.bind needTrue = .ok () →
      (evalScript (checkSignature checkSig G) hashes stack script).1.bind needTrue = .ok () := by
    intro stack script hevaluates hok
    obtain ⟨stack', hstack, htrue⟩ := Eval.bind_eq_ok.mp hok
    rw [heval hevaluates hstack]
    exact htrue
  obtain ⟨stackCopy, hsig, hpub, hhash⟩ := verifyScript_eq_ok.mp h
  refine verifyScript_eq_ok.mpr ⟨stackCopy, heval .scriptSig hsig, hneed (.scriptPubKey hsig) hpub,
    fun hG2 => ?_⟩
  rw [Bool.and_eq_true] at hG2
  have hF2 : (hasFlag F SCRIPT_VERIFY_P2SH && isPayToScriptHash scriptPubKey) = true := by
    rw [hasFlag_of_or_eq hG hG2.1, hG2.2]
    rfl
  obtain ⟨hpush, pubKey2, stack, rfl, hredeem⟩ := hhash hF2
  exact ⟨hpush, pubKey2, stack, rfl, hneed (.pubKey2 hsig hF2) hredeem⟩

/-! ## A script that asks for a signature to fail -/

/-- A public key in the hybrid encoding, and a signature. -/
def hybridKey : Bytes := 6 :: List.replicate 64 1

def derSig : Bytes := [0x30, 6, 2, 1, 1, 2, 1, 1, 1]

/-- `<hybridKey> OP_CHECKSIG OP_NOT`. -/
def notSigned : Bytes := pushVector hybridKey ++ [OP_CHECKSIG, OP_NOT]

section

variable {check : SigCheck → Eval Bool} {hashes : ScriptHashes} {b : Bool}

theorem evalScript_notSigned
    (hcheck : ∀ scriptCode, check ⟨derSig, hybridKey, scriptCode⟩ = .ok b) :
    (evalScript check hashes [derSig] notSigned).1 = .ok [boolVch !b] := by
  have hpush : evalFrom check hashes notSigned (.init [derSig] notSigned) =
      evalFrom check hashes [OP_CHECKSIG, OP_NOT] ⟨[hybridKey, derSig], [], [], 0, notSigned⟩ :=
    evalFrom_push (getOp2_pushOp (by decide) _).2 (by decide) (by decide) (by decide)
  have hsig : (execOp check hashes true OP_CHECKSIG [OP_NOT]
      ⟨[hybridKey, derSig], [], [], 1, notSigned⟩).1 = .ok ⟨[boolVch b], [], [], 1, notSigned⟩ := by
    rw [execOp, if_pos (.inl rfl)]
    change (andThen (check ⟨derSig, hybridKey, _⟩) _).1 = _
    rw [hcheck]
    rfl
  have hnot : ∀ pc, (execOp check hashes true OP_NOT pc ⟨[boolVch b], [], [], 2, notSigned⟩).1 =
      .ok ⟨[boolVch !b], [], [], 2, notSigned⟩ := by
    cases b
    · exact fun _ => rfl
    · exact fun _ => rfl
  have hroom : ∀ vch : Bytes, [vch].length + ([] : Stack).length ≤ 1000 := fun _ => by simp
  have hlast : getOps [OP_NOT] = some [⟨OP_NOT, []⟩] := by
    rw [getOps_opcode (by decide), getOps_nil]
    rfl
  have hend : evalFrom check hashes notSigned (.init [derSig] notSigned) =
      .ok ⟨[boolVch !b], [], [], 2, notSigned⟩ := by
    rw [hpush, evalFrom_opcode rfl (by decide) rfl (by decide) hsig (hroom _)]
    exact evalFrom_last hlast (by decide) rfl (by decide) hnot (hroom _)
  exact evalScript_of_evalFrom (by decide) hend rfl

theorem verifyScript_notSigned {flags : UInt32}
    (hcheck : ∀ scriptCode, check ⟨derSig, hybridKey, scriptCode⟩ = .ok b) :
    (verifyScript check hashes flags (pushVector derSig) notSigned).1 = .ok () ↔ b = false := by
  have hsig : (evalScript check hashes [] (pushVector derSig)).1 = .ok [derSig] :=
    @evalScript_pushes check hashes [] [derSig] (by decide) (by decide) (by decide)
  have hhash : isPayToScriptHash notSigned = false := rfl
  rw [verifyScript_eq_ok]
  simp only [hsig, hhash, Bool.and_false, Except.ok.injEq, exists_eq_left',
    evalScript_notSigned hcheck]
  cases b
  · exact iff_of_true ⟨rfl, nofun⟩ rfl
  · exact iff_of_false (fun h => nomatch h.1) nofun

end

/-- A signature that fails for both. -/
theorem verifyScript_tightens_wrong :
    (verifyScript (checkSignature (fun _ => false) SCRIPT_VERIFY_P2SH) lengthHashes
      SCRIPT_VERIFY_P2SH (pushVector derSig) notSigned).1 = .ok () :=
  verifyScript_tightens (fun _ => false) lengthHashes verifyFlagsMask SCRIPT_VERIFY_P2SH rfl rfl
    (pushVector derSig) notSigned
    (fun _ _ _ _ _ _ _ _ _ h => by
      obtain ⟨-, -, c, -, -, hcheck⟩ := h
      cases hcheck)
    ((verifyScript_notSigned (b := false) fun _ => rfl).mpr rfl)

/-- The check of a hybrid key fails under `STRICTENC` only, which the script asks for. -/
theorem not_verifyScript_tightens :
    ¬∀ (checkSig : SigCheck → Bool) (hashes : ScriptHashes) (F G : UInt32)
      (_ : F ||| verifyFlagsMask = verifyFlagsMask) (_ : G ||| F = F)
      (scriptSig scriptPubKey : Bytes),
      (verifyScript (checkSignature checkSig F) hashes F scriptSig scriptPubKey).1 = .ok () →
      (verifyScript (checkSignature checkSig G) hashes G scriptSig scriptPubKey).1 = .ok () := by
  intro h
  have hall := h (fun _ => true) lengthHashes verifyFlagsMask SCRIPT_VERIFY_P2SH rfl rfl
    (pushVector derSig) notSigned
    ((verifyScript_notSigned (b := false) fun _ => rfl).mpr rfl)
  exact absurd ((verifyScript_notSigned (b := true) fun _ => rfl).mp hall) nofun

end Ticoin
