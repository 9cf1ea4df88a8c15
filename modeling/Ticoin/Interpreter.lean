import Ticoin.Lib.Tape
import Ticoin.SigEncoding

/-!
# script.cpp : the script interpreter

`EvalScript` reads one operation after the other and executes it on a stack of byte vectors
(`evalOp`, run by `Tape.run`). Every access to a stack is checked, and `EvalHalt.outOfRange` outside
of it, as are the assertions. A list of cases says what the opcodes do that need no signatures
(`switchCases`).

How a signature is checked is a parameter (`check`), which the flags of `checkSignature`
decide. The signatures that are checked are logged, for a count of the calls of `CheckSig`.
-/

namespace Ticoin

open Codec

def MAX_SCRIPT_ELEMENT_SIZE : ℕ := 520

/-- The hash functions of the crypto opcodes. -/
structure ScriptHashes where
  ripemd160 : Bytes → UInt160
  sha1 : Bytes → UInt160
  sha256 : Bytes → UInt256
  hash160 : Bytes → UInt160
  hash : Bytes → UInt256

/-- Hash functions that tell the length. -/
def lengthHashes : ScriptHashes where
  ripemd160 bs := .ofNat 160 bs.length
  sha1 bs := .ofNat 160 bs.length
  sha256 bs := .ofNat 256 bs.length
  hash160 bs := .ofNat 160 bs.length
  hash bs := .ofNat 256 bs.length

/-- A stack of byte vectors, from the top. -/
abbrev Stack := List Bytes

def vchTrue : Bytes := [1]

def vchFalse : Bytes := []

def boolVch (b : Bool) : Bytes := if b then vchTrue else vchFalse

/-- `CastToBool`. The last byte can be a negative zero. -/
def castToBool : Bytes → Bool
  | [] => false
  | [b] => b != 0 && b != 0x80
  | b :: vch => b != 0 || castToBool vch

namespace EvalScript

/-! ## Access to a stack -/

/-- `stacktop(-i)`. -/
def stacktop (stack : Stack) : ℕ → Eval Bytes
  | 0 => .error .outOfRange
  | i + 1 =>
    match stack[i]? with
    | none => .error .outOfRange
    | some vch => .ok vch

def popstack : Stack → Eval Stack
  | [] => .error .outOfRange
  | _ :: stack => .ok stack

/-- `stack.erase(stack.end() - i)`. -/
def erase (stack : Stack) : ℕ → Eval Stack
  | 0 => .error .outOfRange
  | i + 1 => if i < stack.length then .ok (stack.eraseIdx i) else .error .outOfRange

/-- `stack.insert(stack.end() - i, vch)`. -/
def insert (stack : Stack) (i : ℕ) (vch : Bytes) : Eval Stack :=
  if i ≤ stack.length then .ok (stack.insertIdx i vch) else .error .outOfRange

/-- `swap(stacktop(-i), stacktop(-j))`. -/
def swap (stack : Stack) (i j : ℕ) : Eval Stack := do
  let a ← stacktop stack i
  let b ← stacktop stack j
  return (stack.set (i - 1) b).set (j - 1) a

/-- Return false if there are less than `n` elements. -/
def need (n : ℕ) (stack : Stack) : Eval Unit :=
  if stack.length < n then .error .returnFalse else .ok ()

/-- The end of an opcode with a version that verifies : the result is dropped if it is true. -/
def verify (fVerify fValue : Bool) (stack : Stack) : Eval Stack :=
  if !fVerify then .ok stack
  else if fValue then popstack stack
  else .error .returnFalse

/-! ## Stack ops -/

def op2Drop (stack : Stack) : Eval Stack := do
  need 2 stack
  popstack (← popstack stack)

def op2Dup (stack : Stack) : Eval Stack := do
  need 2 stack
  let vch1 ← stacktop stack 2
  let vch2 ← stacktop stack 1
  return vch2 :: vch1 :: stack

def op3Dup (stack : Stack) : Eval Stack := do
  need 3 stack
  let vch1 ← stacktop stack 3
  let vch2 ← stacktop stack 2
  let vch3 ← stacktop stack 1
  return vch3 :: vch2 :: vch1 :: stack

def op2Over (stack : Stack) : Eval Stack := do
  need 4 stack
  let vch1 ← stacktop stack 4
  let vch2 ← stacktop stack 3
  return vch2 :: vch1 :: stack

def op2Rot (stack : Stack) : Eval Stack := do
  need 6 stack
  let vch1 ← stacktop stack 6
  let vch2 ← stacktop stack 5
  let stack ← erase (← erase stack 6) 5
  return vch2 :: vch1 :: stack

def op2Swap (stack : Stack) : Eval Stack := do
  need 4 stack
  swap (← swap stack 4 2) 3 1

def opIfDup (stack : Stack) : Eval Stack := do
  need 1 stack
  let vch ← stacktop stack 1
  if castToBool vch then return vch :: stack else return stack

def opDepth (stack : Stack) : Eval Stack := .ok (scriptNumSerialize stack.length :: stack)

def opDrop (stack : Stack) : Eval Stack := do
  need 1 stack
  popstack stack

def opDup (stack : Stack) : Eval Stack := do
  need 1 stack
  let vch ← stacktop stack 1
  return vch :: stack

def opNip (stack : Stack) : Eval Stack := do
  need 2 stack
  erase stack 2

def opOver (stack : Stack) : Eval Stack := do
  need 2 stack
  let vch ← stacktop stack 2
  return vch :: stack

/-- `OP_PICK`, and `OP_ROLL` if `fRoll`. -/
def opPick (fRoll : Bool) (stack : Stack) : Eval Stack := do
  need 2 stack
  let n := CScriptNum.getint (← CScriptNum.ofVch (← stacktop stack 1))
  let stack ← popstack stack
  if n < 0 ∨ n ≥ stack.length then throw .returnFalse
  else
    let vch ← stacktop stack (n.toNat + 1)
    let stack ← if fRoll then erase stack (n.toNat + 1) else pure stack
    return vch :: stack

def opRot (stack : Stack) : Eval Stack := do
  need 3 stack
  swap (← swap stack 3 2) 2 1

def opSwap (stack : Stack) : Eval Stack := do
  need 2 stack
  swap stack 2 1

def opTuck (stack : Stack) : Eval Stack := do
  need 2 stack
  let vch ← stacktop stack 1
  insert stack 2 vch

def opSize (stack : Stack) : Eval Stack := do
  need 1 stack
  let vch ← stacktop stack 1
  return scriptNumSerialize vch.length :: stack

def opVerify (stack : Stack) : Eval Stack := do
  need 1 stack
  let fValue := castToBool (← stacktop stack 1)
  if fValue then popstack stack else throw .returnFalse

def opEqual (fVerify : Bool) (stack : Stack) : Eval Stack := do
  need 2 stack
  let vch1 ← stacktop stack 2
  let vch2 ← stacktop stack 1
  let fEqual := vch1 == vch2
  let stack ← popstack (← popstack stack)
  verify fVerify fEqual (boolVch fEqual :: stack)

/-! ## Numeric -/

/-- The inner switch of the opcodes with one operand. -/
def unaryOp (opcode : UInt8) (bn : ℤ) : Eval ℤ :=
  if opcode = OP_1ADD then CScriptNum.addAssign bn 1
  else if opcode = OP_1SUB then CScriptNum.subAssign bn 1
  else if opcode = OP_NEGATE then CScriptNum.neg bn
  else if opcode = OP_ABS then if bn < 0 then CScriptNum.neg bn else .ok bn
  else if opcode = OP_NOT then .ok (CScriptNum.ofBool (bn = 0))
  else if opcode = OP_0NOTEQUAL then .ok (CScriptNum.ofBool (bn ≠ 0))
  else .error .assertFailed

def opUnary (opcode : UInt8) (stack : Stack) : Eval Stack := do
  need 1 stack
  let bn ← CScriptNum.ofVch (← stacktop stack 1)
  let bn ← unaryOp opcode bn
  let stack ← popstack stack
  return scriptNumSerialize bn :: stack

/-- The inner switch of the opcodes with two operands. -/
def binaryOp (opcode : UInt8) (bn1 bn2 : ℤ) : Eval ℤ :=
  if opcode = OP_ADD then .ok (bn1 + bn2)
  else if opcode = OP_SUB then .ok (bn1 - bn2)
  else if opcode = OP_BOOLAND then .ok (CScriptNum.ofBool (bn1 ≠ 0 ∧ bn2 ≠ 0))
  else if opcode = OP_BOOLOR then .ok (CScriptNum.ofBool (bn1 ≠ 0 ∨ bn2 ≠ 0))
  else if opcode = OP_NUMEQUAL then .ok (CScriptNum.ofBool (bn1 = bn2))
  else if opcode = OP_NUMEQUALVERIFY then .ok (CScriptNum.ofBool (bn1 = bn2))
  else if opcode = OP_NUMNOTEQUAL then .ok (CScriptNum.ofBool (bn1 ≠ bn2))
  else if opcode = OP_LESSTHAN then .ok (CScriptNum.ofBool (bn1 < bn2))
  else if opcode = OP_GREATERTHAN then .ok (CScriptNum.ofBool (bn1 > bn2))
  else if opcode = OP_LESSTHANOREQUAL then .ok (CScriptNum.ofBool (bn1 ≤ bn2))
  else if opcode = OP_GREATERTHANOREQUAL then .ok (CScriptNum.ofBool (bn1 ≥ bn2))
  else if opcode = OP_MIN then .ok (if bn1 < bn2 then bn1 else bn2)
  else if opcode = OP_MAX then .ok (if bn1 > bn2 then bn1 else bn2)
  else .error .assertFailed

def opBinary (opcode : UInt8) (stack : Stack) : Eval Stack := do
  need 2 stack
  let bn1 ← CScriptNum.ofVch (← stacktop stack 2)
  let bn2 ← CScriptNum.ofVch (← stacktop stack 1)
  let bn ← binaryOp opcode bn1 bn2
  let stack ← popstack (← popstack stack)
  let stack := scriptNumSerialize bn :: stack
  verify (opcode = OP_NUMEQUALVERIFY) (castToBool (← stacktop stack 1)) stack

def opWithin (stack : Stack) : Eval Stack := do
  need 3 stack
  let bn1 ← CScriptNum.ofVch (← stacktop stack 3)
  let bn2 ← CScriptNum.ofVch (← stacktop stack 2)
  let bn3 ← CScriptNum.ofVch (← stacktop stack 1)
  let stack ← popstack (← popstack (← popstack stack))
  return boolVch (bn2 ≤ bn1 ∧ bn1 < bn3) :: stack

/-! ## Crypto -/

/-- The hash an opcode makes, as bytes. -/
def hashVch (hashes : ScriptHashes) (opcode : UInt8) (vch : Bytes) : Bytes :=
  if opcode = OP_RIPEMD160 then leBytes 20 (hashes.ripemd160 vch).toNat
  else if opcode = OP_SHA1 then leBytes 20 (hashes.sha1 vch).toNat
  else if opcode = OP_SHA256 then leBytes 32 (hashes.sha256 vch).toNat
  else if opcode = OP_HASH160 then leBytes 20 (hashes.hash160 vch).toNat
  else leBytes 32 (hashes.hash vch).toNat

def opHash (hashes : ScriptHashes) (opcode : UInt8) (stack : Stack) : Eval Stack := do
  need 1 stack
  let vch ← stacktop stack 1
  let stack ← popstack stack
  return hashVch hashes opcode vch :: stack

end EvalScript

/-! ## The state of an evaluation -/

structure EvalState where
  stack : Stack
  altstack : Stack
  /-- the conditions of the open branches, from the innermost -/
  vfExec : List Bool
  nOpCount : ℕ
  /-- the script from the most recent code separator on -/
  pbegincodehash : Bytes
  deriving DecidableEq

namespace EvalScript

def onStack (f : Stack → Eval Stack) (st : EvalState) : Eval EvalState := do
  return { st with stack := ← f st.stack }

/-- `OP_IF`, and `OP_NOTIF` if `fNot`. -/
def opIf (fExec fNot : Bool) (st : EvalState) : Eval EvalState := do
  if fExec then
    need 1 st.stack
    let fValue := castToBool (← stacktop st.stack 1)
    let stack ← popstack st.stack
    return { st with stack := stack, vfExec := (if fNot then !fValue else fValue) :: st.vfExec }
  else return { st with vfExec := false :: st.vfExec }

def opElse (st : EvalState) : Eval EvalState :=
  match st.vfExec with
  | [] => .error .returnFalse
  | b :: vfExec => .ok { st with vfExec := (!b) :: vfExec }

def opEndIf (st : EvalState) : Eval EvalState :=
  match st.vfExec with
  | [] => .error .returnFalse
  | _ :: vfExec => .ok { st with vfExec := vfExec }

def opToAltStack (st : EvalState) : Eval EvalState := do
  need 1 st.stack
  let vch ← stacktop st.stack 1
  let stack ← popstack st.stack
  return { st with stack := stack, altstack := vch :: st.altstack }

def opFromAltStack (st : EvalState) : Eval EvalState := do
  need 1 st.altstack
  let vch ← stacktop st.altstack 1
  let altstack ← popstack st.altstack
  return { st with stack := vch :: st.stack, altstack := altstack }

/-- The cases of the switch by their labels, where `pc` is the script after the operation. -/
def switchCases (hashes : ScriptHashes) (fExec : Bool) (opcode : UInt8) (pc : Bytes) :
    List (List UInt8 × (EvalState → Eval EvalState)) :=
  [([OP_IF, OP_NOTIF], opIf fExec (opcode = OP_NOTIF)),
    ([OP_ELSE], opElse),
    ([OP_ENDIF], opEndIf),
    ([OP_VERIFY], onStack opVerify),
    ([OP_RETURN], fun _ => .error .returnFalse),
    ([OP_TOALTSTACK], opToAltStack),
    ([OP_FROMALTSTACK], opFromAltStack),
    ([OP_2DROP], onStack op2Drop),
    ([OP_2DUP], onStack op2Dup),
    ([OP_3DUP], onStack op3Dup),
    ([OP_2OVER], onStack op2Over),
    ([OP_2ROT], onStack op2Rot),
    ([OP_2SWAP], onStack op2Swap),
    ([OP_IFDUP], onStack opIfDup),
    ([OP_DEPTH], onStack opDepth),
    ([OP_DROP], onStack opDrop),
    ([OP_DUP], onStack opDup),
    ([OP_NIP], onStack opNip),
    ([OP_OVER], onStack opOver),
    ([OP_PICK, OP_ROLL], onStack (opPick (opcode = OP_ROLL))),
    ([OP_ROT], onStack opRot),
    ([OP_SWAP], onStack opSwap),
    ([OP_TUCK], onStack opTuck),
    ([OP_SIZE], onStack opSize),
    ([OP_EQUAL, OP_EQUALVERIFY], onStack (opEqual (opcode = OP_EQUALVERIFY))),
    ([OP_1ADD, OP_1SUB, OP_NEGATE, OP_ABS, OP_NOT, OP_0NOTEQUAL], onStack (opUnary opcode)),
    ([OP_ADD, OP_SUB, OP_BOOLAND, OP_BOOLOR, OP_NUMEQUAL, OP_NUMEQUALVERIFY, OP_NUMNOTEQUAL,
      OP_LESSTHAN, OP_GREATERTHAN, OP_LESSTHANOREQUAL, OP_GREATERTHANOREQUAL, OP_MIN, OP_MAX],
      onStack (opBinary opcode)),
    ([OP_WITHIN], onStack opWithin),
    ([OP_RIPEMD160, OP_SHA1, OP_SHA256, OP_HASH160, OP_HASH256], onStack (opHash hashes opcode)),
    ([OP_CODESEPARATOR], fun st => .ok { st with pbegincodehash := pc })]

/-- Opcodes that push a number. -/
def pushesNumber (opcode : UInt8) : Bool :=
  opcode = OP_1NEGATE || (OP_1 ≤ opcode && opcode ≤ OP_16)

def isNop (opcode : UInt8) : Bool := opcode = OP_NOP || (OP_NOP1 ≤ opcode && opcode ≤ OP_NOP10)

/-- The switch, less the opcodes that check signatures. -/
def execPlain (hashes : ScriptHashes) (fExec : Bool) (opcode : UInt8) (pc : Bytes)
    (st : EvalState) : Eval EvalState :=
  if pushesNumber opcode then
    .ok { st with stack := scriptNumSerialize ((opcode.toNat : ℤ) - (OP_1.toNat - 1)) :: st.stack }
  else if isNop opcode then .ok st
  else
    match (switchCases hashes fExec opcode pc).find? fun c => c.1.contains opcode with
    | none => .error .returnFalse
    | some c => c.2 st

/-! ## Signatures -/

/-- What `CheckSig` is asked : a signature, a public key and the script code. -/
structure SigCheck where
  vchSig : Bytes
  vchPubKey : Bytes
  scriptCode : Bytes
  deriving DecidableEq, Repr

/-- Go on with what was computed. -/
def andThen {α β : Type} (x : Eval α) (f : α → Eval β × List SigCheck) : Eval β × List SigCheck :=
  match x with
  | .error e => (.error e, [])
  | .ok a => f a

/-- A read of bytes that has to be in range. -/
def ofRead {α : Type} : Option α → Eval α
  | none => .error .outOfRange
  | some a => .ok a

/-- Whether the flags let `CheckSig` be called. -/
def isCanonical (flags : UInt32) (c : SigCheck) : Option Bool := do
  if !(← isCanonicalSignature c.vchSig flags) then return false
  else isCanonicalPubKey c.vchPubKey flags

/-- How a signature is checked under the flags. -/
def checkSignature (checkSig : SigCheck → Bool) (flags : UInt32) (c : SigCheck) : Eval Bool := do
  if !(← ofRead (checkSignatureEncoding c.vchSig flags)) then throw .returnFalse
  else if !(← ofRead (isCanonical flags c)) then return false
  else return checkSig c

variable (check : SigCheck → Eval Bool)

/-- `OP_CHECKSIG`, and `OP_CHECKSIGVERIFY` if `fVerify`. -/
def opCheckSig (fVerify : Bool) (st : EvalState) : Eval EvalState × List SigCheck :=
  andThen (do
    need 2 st.stack
    let vchSig ← stacktop st.stack 2
    let vchPubKey ← stacktop st.stack 1
    -- drop the signature, since there's no way for a signature to sign itself
    return ⟨vchSig, vchPubKey, (findAndDelete st.pbegincodehash (pushVector vchSig)).1⟩) fun c =>
  andThen (check c) fun fSuccess =>
    (onStack (fun stack => do
      let stack ← popstack (← popstack stack)
      verify fVerify fSuccess (boolVch fSuccess :: stack)) st, [c])

/-- The loop of `OP_CHECKMULTISIG`, which moves on to the next key, and on success to the next
signature. -/
def checkKeys (stack : Stack) (scriptCode : Bytes) : ℕ → ℕ → ℕ → ℕ → Eval Bool × List SigCheck
  | _, 0, _, _ => (.ok true, [])
  | nKeysCount, nSigsCount + 1, isig, ikey =>
    andThen (do return ⟨← stacktop stack isig, ← stacktop stack ikey, scriptCode⟩) fun c =>
    andThen (check c) fun fOk =>
      match nKeysCount with
      | 0 => (.ok false, [c])
      | nKeysCount + 1 =>
        let nSigsLeft := if fOk then nSigsCount else nSigsCount + 1
        -- if there are more signatures left than keys left, then too many signatures have failed
        if nSigsLeft > nKeysCount then (.ok false, [c])
        else
          let r := checkKeys stack scriptCode nKeysCount nSigsLeft
            (if fOk then isig + 1 else isig) (ikey + 1)
          (r.1, c :: r.2)

/-- Drop the signatures. -/
def deleteSigs (stack : Stack) (isig nSigsCount : ℕ) (scriptCode : Bytes) : Eval Bytes :=
  (List.range nSigsCount).foldlM (fun scriptCode k => do
    let vchSig ← stacktop stack (isig + k)
    return (findAndDelete scriptCode (pushVector vchSig)).1) scriptCode

/-- A number of keys or signatures at a place of the stack, which is at most `nMax`. -/
def countAt (stack : Stack) (i nMax : ℕ) : Eval ℕ := do
  need i stack
  let n := CScriptNum.getint (← CScriptNum.ofVch (← stacktop stack i))
  if n < 0 ∨ n > nMax then throw .returnFalse else return n.toNat

def popstackN : ℕ → Stack → Eval Stack
  | 0, stack => .ok stack
  | i + 1, stack => do popstackN i (← popstack stack)

/-- `OP_CHECKMULTISIG`, and `OP_CHECKMULTISIGVERIFY` if `fVerify`. -/
def opCheckMultiSig (fVerify : Bool) (st : EvalState) : Eval EvalState × List SigCheck :=
  andThen (do
    let nKeysCount ← countAt st.stack 1 20
    if st.nOpCount + nKeysCount > 201 then throw .returnFalse
    else
      let nSigsCount ← countAt st.stack (2 + nKeysCount) nKeysCount
      need (3 + nKeysCount + nSigsCount) st.stack
      let scriptCode ← deleteSigs st.stack (3 + nKeysCount) nSigsCount st.pbegincodehash
      return (nKeysCount, nSigsCount, scriptCode)) fun (nKeysCount, nSigsCount, scriptCode) =>
    let r := checkKeys check st.stack scriptCode nKeysCount nSigsCount (3 + nKeysCount) 2
    (do
      let fSuccess ← r.1
      onStack (fun stack => do
        let stack ← popstackN (3 + nKeysCount + nSigsCount) stack
        verify fVerify fSuccess (boolVch fSuccess :: stack))
        { st with nOpCount := st.nOpCount + nKeysCount }, r.2)

/-- The switch. -/
def execOp (hashes : ScriptHashes) (fExec : Bool) (opcode : UInt8) (pc : Bytes) (st : EvalState) :
    Eval EvalState × List SigCheck :=
  if opcode = OP_CHECKSIG ∨ opcode = OP_CHECKSIGVERIFY then
    opCheckSig check (opcode = OP_CHECKSIGVERIFY) st
  else if opcode = OP_CHECKMULTISIG ∨ opcode = OP_CHECKMULTISIGVERIFY then
    opCheckMultiSig check (opcode = OP_CHECKMULTISIGVERIFY) st
  else (execPlain hashes fExec opcode pc st, [])

/-! ## EvalScript and VerifyScript -/

/-- Disabled opcodes. -/
def isDisabled (opcode : UInt8) : Bool :=
  [OP_CAT, OP_SUBSTR, OP_LEFT, OP_RIGHT, OP_INVERT, OP_AND, OP_OR, OP_XOR, OP_2MUL, OP_2DIV, OP_MUL,
    OP_DIV, OP_MOD, OP_LSHIFT, OP_RSHIFT].contains opcode

/-- Note how `OP_RESERVED` does not count towards the opcode limit. -/
def countOp (opcode : UInt8) (st : EvalState) : EvalState :=
  if opcode > OP_16 then { st with nOpCount := st.nOpCount + 1 } else st

/-- Push the value of the operation, or execute it. In a branch that is not executed only the
opcodes of branches are. -/
def dispatch (hashes : ScriptHashes) (op : ScriptOp) (pc : Bytes) (st : EvalState) :
    Eval EvalState × List SigCheck :=
  let fExec := st.vfExec.all id
  if fExec ∧ op.opcode ≤ OP_PUSHDATA4 then (.ok { st with stack := op.vch :: st.stack }, [])
  else if fExec ∨ (OP_IF ≤ op.opcode ∧ op.opcode ≤ OP_ENDIF) then
    execOp check hashes fExec op.opcode pc st
  else (.ok st, [])

/-- Size limits. -/
def limitSize (st : EvalState) : Eval EvalState :=
  if st.stack.length + st.altstack.length > 1000 then .error .returnFalse else .ok st

/-- One pass of the loop, after the operation is read. `pc` is the script after it. -/
def evalOp (hashes : ScriptHashes) (op : ScriptOp) (pc : Bytes) (st : EvalState) :
    Eval EvalState × List SigCheck :=
  if op.vch.length > MAX_SCRIPT_ELEMENT_SIZE then (.error .returnFalse, [])
  else if op.opcode > OP_16 ∧ (countOp op.opcode st).nOpCount > 201 then (.error .returnFalse, [])
  else if isDisabled op.opcode then (.error .returnFalse, [])
  else
    let r := dispatch check hashes op pc (countOp op.opcode st)
    (r.1.bind limitSize, r.2)

section

variable {check} {hashes : ScriptHashes} {op : ScriptOp} {pc : Bytes} {st st' : EvalState}

theorem countOp_stack (opcode : UInt8) : (countOp opcode st).stack = st.stack := by
  rw [countOp]
  split <;> rfl

theorem countOp_vfExec (opcode : UInt8) : (countOp opcode st).vfExec = st.vfExec := by
  rw [countOp]
  split <;> rfl

/-- What was executed when an operation succeeds. -/
theorem evalOp_ok (h : (evalOp check hashes op pc st).1 = .ok st') :
    (dispatch check hashes op pc (countOp op.opcode st)).1 = .ok st' := by
  rw [evalOp] at h
  split at h
  · cases h
  split at h
  · cases h
  split at h
  · cases h
  obtain ⟨st'', hst, hlimit⟩ := Eval.bind_eq_ok.mp h
  rw [limitSize] at hlimit
  split at hlimit
  · cases hlimit
  · cases hlimit
    exact hst

/-- The signatures that are checked are those of the execution, if it comes to that. -/
theorem log_evalOp : (evalOp check hashes op pc st).2 = [] ∨
    (evalOp check hashes op pc st).2 = (dispatch check hashes op pc (countOp op.opcode st)).2 := by
  rw [evalOp]
  split
  · exact .inl rfl
  split
  · exact .inl rfl
  split
  · exact .inl rfl
  · exact .inr rfl

end

end EvalScript

open EvalScript

/-- Operations are read from the bytes of a script. -/
def opReader : Tape.Reader UInt8 ScriptOp := ⟨getOp2, length_getOp2_lt⟩

variable (check : SigCheck → Eval Bool) (hashes : ScriptHashes)

/-- The state before the first operation. -/
def EvalState.init (stack : Stack) (script : Bytes) : EvalState := ⟨stack, [], [], 0, script⟩

/-- The loop of `EvalScript`. -/
def evalLoop (stack : Stack) (script : Bytes) : Eval EvalState × List SigCheck :=
  Tape.run opReader .returnFalse (evalOp check hashes) script (.init stack script)

/-- `catch (...) { return false; }`, which an assertion does not get to. -/
def catchAll {α : Type} : Eval α → Eval α
  | .error .scriptNumError => .error .returnFalse
  | .error .outOfRange => .error .returnFalse
  | r => r

/-- The end of `EvalScript`, where all branches have to be closed. -/
def endOfScript (r : Eval EvalState) : Eval Stack :=
  (catchAll r).bind fun st => if !st.vfExec.isEmpty then .error .returnFalse else .ok st.stack

/-- `EvalScript` : the stack if it returns true, and the signatures that were checked. -/
def evalScript (stack : Stack) (script : Bytes) : Eval Stack × List SigCheck :=
  if script.length > 10000 then (.error .returnFalse, [])
  else
    let r := evalLoop check hashes stack script
    (endOfScript r.1, r.2)

theorem evalScript_fst (stack : Stack) (script : Bytes) : (evalScript check hashes stack script).1 =
    if script.length > 10000 then .error .returnFalse
    else endOfScript (evalLoop check hashes stack script).1 := by
  rw [evalScript]
  split <;> rfl

variable {check} {hashes} in
/-- An evaluation that returns true ends with all branches closed. -/
theorem evalScript_ok {stack stack' : Stack} {script : Bytes}
    (h : (evalScript check hashes stack script).1 = .ok stack') :
    ∃ st, (evalLoop check hashes stack script).1 = .ok st ∧ st.vfExec = [] ∧ st.stack = stack' ∧
      Tape.Reached opReader (evalOp check hashes) script (.init stack script) [] st := by
  rw [evalScript_fst] at h
  split at h
  · cases h
  rcases Tape.run_cases opReader .returnFalse (evalOp check hashes) script (.init stack script) with
    ⟨st, hok, hreach⟩ | hstop | ⟨_, _, _, _, e, _, _, _, hrun⟩
  · rw [evalLoop, hok] at h
    change (if !st.vfExec.isEmpty then Except.error EvalHalt.returnFalse else .ok st.stack) = _ at h
    split at h
    · cases h
    · rename_i hempty
      cases h
      exact ⟨st, hok, by simpa using hempty, rfl, hreach⟩
  · rw [evalLoop, hstop] at h
    cases h
  · rw [evalLoop, hrun] at h
    cases e <;> cases h

/-- `IsPushOnly`. -/
def isPushOnly (script : Bytes) : Bool := (lastPush [] script).isSome

/-- The end of an evaluation, which left a stack with true on top. -/
def needTrue (stack : Stack) : Eval Unit :=
  match stack with
  | [] => .error .returnFalse
  | vch :: _ => if castToBool vch then .ok () else .error .returnFalse

/-- `VerifyScript` : `ok` if it returns true. -/
def verifyScript (flags : UInt32) (scriptSig scriptPubKey : Bytes) : Eval Unit × List SigCheck :=
  let r := evalScript check hashes [] scriptSig
  match r.1 with
  | .error e => (.error e, r.2)
  | .ok stackCopy =>
    let r' := evalScript check hashes stackCopy scriptPubKey
    match r'.1.bind needTrue with
    | .error e => (.error e, r.2 ++ r'.2)
    | .ok () =>
      if !(hasFlag flags SCRIPT_VERIFY_P2SH && isPayToScriptHash scriptPubKey) then
        (.ok (), r.2 ++ r'.2)
      else if !isPushOnly scriptSig then (.error .returnFalse, r.2 ++ r'.2)
      else
        match stackCopy with
        | [] => (.error .assertFailed, r.2 ++ r'.2)
        | pubKey2 :: stackCopy =>
          let r'' := evalScript check hashes stackCopy pubKey2
          (r''.1.bind needTrue, r.2 ++ r'.2 ++ r''.2)

end Ticoin
