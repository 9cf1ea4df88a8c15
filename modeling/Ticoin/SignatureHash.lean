import Ticoin.Script

/-!
# The signature hash, streamed and from a modified copy

`SignatureHash` streams a transaction with the modifications of the hash type made in
place (`CTransactionSignatureSerializer`) : separators of the script code are skipped and
the length prefix counts what is left, other inputs are blanked, outputs are cut or
nulled. `SignatureHashOld`, the reference of the unit tests, edits a copy of the
transaction and serializes that.

On a script code all of whose operations can be read the two hash the same bytes, for
every transaction, input, hash type and hash function (`signatureHash_eq_old`). The
pieces : the streamed script code is the serialization of the script left by
`FindAndDelete` (`serializeScriptCode_eq`), and the streamed inputs and outputs are those
of the copy.
-/

namespace Ticoin

open Codec

def SIGHASH_ALL : Int32 := 1
def SIGHASH_NONE : Int32 := 2
def SIGHASH_SINGLE : Int32 := 3
def SIGHASH_ANYONECANPAY : Int32 := 0x80

/-- The null input `CTxIn()`. -/
def CTxIn.null : CTxIn := ⟨COutPoint.null, [], 0xffffffff⟩

/-! ## The streaming serializer -/

/-- The first loop of `SerializeScriptCode` : the separators from a position on. -/
def countCodeSeparators (it : Bytes) : ℕ :=
  match _hop : getOp2 it with
  | (none, _) => 0
  | (some op, it') => (if op.opcode = OP_CODESEPARATOR then 1 else 0) + countCodeSeparators it'
termination_by it.length
decreasing_by exact length_getOp2_lt (by assumption)

/-- The second loop : what is written from `it` on, where `itBegin` is the start of the
piece not yet written. A separator ends a piece just before itself. -/
def writePieces (itBegin it : Bytes) : Bytes :=
  match _hop : getOp2 it with
  | (none, it') => bytesBetween itBegin it'
  | (some op, it') =>
    if op.opcode = OP_CODESEPARATOR then
      itBegin.take (itBegin.length - it'.length - 1) ++ writePieces it' it'
    else writePieces itBegin it'
termination_by it.length
decreasing_by all_goals exact length_getOp2_lt (by assumption)

/-- `SerializeScriptCode`. -/
def serializeScriptCode (scriptCode : Bytes) : Bytes :=
  writeCompactSize (scriptCode.length - countCodeSeparators scriptCode) ++
    writePieces scriptCode scriptCode

/-- A transaction serialized with the modifications of the signature hash. -/
structure CTransactionSignatureSerializer where
  txTo : CTransaction
  scriptCode : Bytes
  nIn : ℕ
  fAnyoneCanPay : Bool
  fHashSingle : Bool
  fHashNone : Bool

def CTransactionSignatureSerializer.new (txTo : CTransaction) (scriptCode : Bytes) (nIn : ℕ)
    (nHashType : Int32) : CTransactionSignatureSerializer where
  txTo := txTo
  scriptCode := scriptCode
  nIn := nIn
  fAnyoneCanPay := nHashType &&& SIGHASH_ANYONECANPAY != 0
  fHashSingle := nHashType &&& 0x1f == SIGHASH_SINGLE
  fHashNone := nHashType &&& 0x1f == SIGHASH_NONE

namespace CTransactionSignatureSerializer

/-- An input : other inputs are written without script, and without sequence where they
may be updated at will. -/
def serializeInputAt (s : CTransactionSignatureSerializer) (nInput : ℕ) : Bytes :=
  let txin := s.txTo.vin.getD nInput CTxIn.null
  txin.prevout.serialize ++
    (if nInput ≠ s.nIn then serializeBytes [] else serializeScriptCode s.scriptCode) ++
    (if nInput ≠ s.nIn ∧ (s.fHashSingle ∨ s.fHashNone) then serializeInt32 0
      else serializeUInt32 txin.nSequence)

/-- In case of `SIGHASH_ANYONECANPAY`, only the input being signed is serialized. -/
def serializeInput (s : CTransactionSignatureSerializer) (nInput : ℕ) : Bytes :=
  s.serializeInputAt (if s.fAnyoneCanPay then s.nIn else nInput)

def serializeOutput (s : CTransactionSignatureSerializer) (nOutput : ℕ) : Bytes :=
  if s.fHashSingle ∧ nOutput ≠ s.nIn then CTxOut.null.serialize
  else (s.txTo.vout.getD nOutput CTxOut.null).serialize

def nInputs (s : CTransactionSignatureSerializer) : ℕ :=
  if s.fAnyoneCanPay then 1 else s.txTo.vin.length

def nOutputs (s : CTransactionSignatureSerializer) : ℕ :=
  if s.fHashNone then 0 else if s.fHashSingle then s.nIn + 1 else s.txTo.vout.length

def serialize (s : CTransactionSignatureSerializer) : Bytes :=
  serializeInt32 s.txTo.nVersion ++
    (writeCompactSize s.nInputs ++ (List.range s.nInputs).flatMap s.serializeInput) ++
    (writeCompactSize s.nOutputs ++ (List.range s.nOutputs).flatMap s.serializeOutput) ++
    serializeUInt32 s.txTo.nLockTime

end CTransactionSignatureSerializer

/-- The bytes `SignatureHash` hashes, `none` when it returns one instead. -/
def signatureHashStream (scriptCode : Bytes) (txTo : CTransaction) (nIn : ℕ)
    (nHashType : Int32) : Option Bytes :=
  if nIn ≥ txTo.vin.length then none
  else if nHashType &&& 0x1f == SIGHASH_SINGLE && nIn ≥ txTo.vout.length then none
  else
    let txTmp := CTransactionSignatureSerializer.new txTo scriptCode nIn nHashType
    some (txTmp.serialize ++ serializeInt32 nHashType)

def signatureHash (H : Bytes → UInt256) (scriptCode : Bytes) (txTo : CTransaction) (nIn : ℕ)
    (nHashType : Int32) : UInt256 :=
  match signatureHashStream scriptCode txTo nIn nHashType with
  | none => 1
  | some ss => H ss

/-! ## The modified copy -/

/-- The script signatures blanked out, but for the script code at the input signed. -/
def blankScripts (scriptCode : Bytes) (nIn : ℕ) (vin : List CTxIn) : List CTxIn :=
  (vin.map fun txin => { txin with scriptSig := [] }).modify nIn
    fun txin => { txin with scriptSig := scriptCode }

/-- Let the others update at will. -/
def zeroSequences (nIn : ℕ) (vin : List CTxIn) : List CTxIn :=
  vin.mapIdx fun i txin => if i ≠ nIn then { txin with nSequence := 0 } else txin

/-- The first `nOut` outputs nulled, those after `nOut` cut. -/
def lockInSingle (nOut : ℕ) (vout : List CTxOut) : List CTxOut :=
  (vout.take (nOut + 1)).mapIdx fun i txout => if i < nOut then CTxOut.null else txout

/-- The copy `SignatureHashOld` serializes, `none` when it returns one instead. -/
def signatureHashCopy (scriptCode : Bytes) (txTo : CTransaction) (nIn : ℕ) (nHashType : Int32) :
    Option CTransaction :=
  if nIn ≥ txTo.vin.length then none
  else
    let scriptCode := (findAndDelete scriptCode [OP_CODESEPARATOR]).1
    let txTmp := { txTo with vin := blankScripts scriptCode nIn txTo.vin }
    let txTmp? :=
      if nHashType &&& 0x1f == SIGHASH_NONE then
        some { txTmp with vout := [], vin := zeroSequences nIn txTmp.vin }
      else if nHashType &&& 0x1f == SIGHASH_SINGLE then
        if nIn ≥ txTmp.vout.length then none
        else some { txTmp with
          vout := lockInSingle nIn txTmp.vout
          vin := zeroSequences nIn txTmp.vin }
      else some txTmp
    txTmp?.map fun txTmp =>
      if nHashType &&& SIGHASH_ANYONECANPAY != 0 then
        { txTmp with vin := (txTmp.vin.set 0 (txTmp.vin.getD nIn CTxIn.null)).take 1 }
      else txTmp

def signatureHashOld (H : Bytes → UInt256) (scriptCode : Bytes) (txTo : CTransaction) (nIn : ℕ)
    (nHashType : Int32) : UInt256 :=
  match signatureHashCopy scriptCode txTo nIn nHashType with
  | none => 1
  | some txTmp => H (txTmp.serialize ++ serializeInt32 nHashType)

/-! ## The script code -/

/-- The pieces written are the script left by deleting the separators. -/
theorem writePieces_eq {pc : Bytes} (hp : Parses pc) : ∀ pre : Bytes,
    writePieces (pre ++ pc) pc = pre ++ (findAndDeleteFrom [OP_CODESEPARATOR] pc).1 := by
  induction hp with
  | nil =>
    intro pre
    rw [writePieces, findAndDeleteFrom_nil]
    simp [getOp2, bytesBetween]
  | @cons pc pc' op hop hp ih =>
    intro pre
    obtain ⟨data, hpc, hdata⟩ := getOp2_eq_append hop
    rw [writePieces]
    split
    · simp_all
    · rename_i op₁ it' hop₁
      obtain ⟨rfl, rfl⟩ : op = op₁ ∧ pc' = it' := by simpa [hop] using hop₁
      by_cases hsep : op.opcode = OP_CODESEPARATOR
      · obtain rfl := hdata (by rw [hsep]; decide)
        have hcut : (pre ++ pc).length - pc'.length - 1 = pre.length := by
          rw [hpc, List.length_append, List.length_cons, List.nil_append]
          omega
        have hih := ih []
        rw [List.nil_append, List.nil_append] at hih
        rw [if_pos hsep, findAndDeleteFrom_eq hop (by decide) hsep, hcut, List.take_left, hih]
      · have hpc' : pc = (op.opcode :: data) ++ pc' := hpc
        have hih := ih (pre ++ (op.opcode :: data))
        rw [List.append_assoc, ← hpc', List.append_assoc] at hih
        rw [if_neg hsep, findAndDeleteFrom_ne hop hsep, hih, hpc', bytesBetween_append]

/-- The separators counted are the operations deleted. -/
theorem countCodeSeparators_eq {pc : Bytes} (hp : Parses pc) :
    countCodeSeparators pc + (findAndDeleteFrom [OP_CODESEPARATOR] pc).1.length = pc.length := by
  induction hp with
  | nil =>
    rw [countCodeSeparators, findAndDeleteFrom_nil]
    simp [getOp2]
  | @cons pc pc' op hop hp ih =>
    obtain ⟨data, hpc, hdata⟩ := getOp2_eq_append hop
    rw [countCodeSeparators]
    split
    · simp_all
    · rename_i op₁ it' hop₁
      obtain ⟨rfl, rfl⟩ : op = op₁ ∧ pc' = it' := by simpa [hop] using hop₁
      by_cases hsep : op.opcode = OP_CODESEPARATOR
      · obtain rfl := hdata (by rw [hsep]; decide)
        rw [if_pos hsep, findAndDeleteFrom_eq hop (by decide) hsep, hpc, List.nil_append,
          List.length_cons]
        dsimp only
        omega
      · have hpc' : pc = (op.opcode :: data) ++ pc' := hpc
        rw [if_neg hsep, findAndDeleteFrom_ne hop hsep, hpc', bytesBetween_append,
          List.length_append, List.length_append]
        omega

/-- The streamed script code is the serialization of the script without separators. -/
theorem serializeScriptCode_eq {scriptCode : Bytes} (hp : Parses scriptCode) :
    serializeScriptCode scriptCode =
      serializeBytes (findAndDelete scriptCode [OP_CODESEPARATOR]).1 := by
  have hcount := countCodeSeparators_eq hp
  have hpieces := writePieces_eq hp []
  rw [List.nil_append, List.nil_append] at hpieces
  rw [serializeScriptCode, serializeBytes, hpieces, findAndDelete, if_neg (by simp)]
  congr 2
  omega

/-! ## The inputs and outputs -/

/-- What is written position by position is what is written element by element, when the
two agree at each position. -/
theorem flatMap_range {α β : Type} {g : α → List β} : ∀ {l : List α} {f : ℕ → List β},
    (∀ (i : ℕ) (hi : i < l.length), f i = g l[i]) →
      (List.range l.length).flatMap f = l.flatMap g
  | [], f, _ => rfl
  | a :: l, f, h => by
    have hl := flatMap_range (l := l) (f := fun i => f (i + 1)) fun i hi =>
      h (i + 1) (Nat.succ_lt_succ hi)
    rw [List.length_cons, List.range_succ_eq_map, List.flatMap_cons, List.flatMap_map,
      List.flatMap_cons, h 0 (Nat.succ_pos _)]
    exact congrArg _ hl

/-- An input of the copy. -/
def copyInput (scriptCode : Bytes) (nIn : ℕ) (fBlank : Bool) (i : ℕ) (txin : CTxIn) : CTxIn where
  prevout := txin.prevout
  scriptSig := if i = nIn then scriptCode else []
  nSequence := if i ≠ nIn ∧ fBlank then 0 else txin.nSequence

theorem blankScripts_eq (scriptCode : Bytes) (nIn : ℕ) (vin : List CTxIn) :
    blankScripts scriptCode nIn vin = vin.mapIdx (copyInput scriptCode nIn false) := by
  refine List.ext_getElem (by simp [blankScripts]) fun i hi _ => ?_
  simp only [blankScripts, List.getElem_modify, List.getElem_map, List.getElem_mapIdx, copyInput]
  split <;> simp_all [eq_comm]

theorem zeroSequences_eq (scriptCode : Bytes) (nIn : ℕ) (vin : List CTxIn) :
    zeroSequences nIn (blankScripts scriptCode nIn vin) =
      vin.mapIdx (copyInput scriptCode nIn true) := by
  refine List.ext_getElem (by simp [zeroSequences, blankScripts]) fun i hi _ => ?_
  simp only [zeroSequences, blankScripts_eq, List.getElem_mapIdx, copyInput]
  split <;> simp_all

section Stream

variable {s : CTransactionSignatureSerializer}

theorem serializeInputAt_eq (hp : Parses s.scriptCode) {i : ℕ} (hi : i < s.txTo.vin.length) :
    s.serializeInputAt i =
      (copyInput (findAndDelete s.scriptCode [OP_CODESEPARATOR]).1 s.nIn
        (s.fHashSingle || s.fHashNone) i s.txTo.vin[i]).serialize := by
  have hzero : serializeInt32 0 = serializeUInt32 0 := rfl
  unfold CTransactionSignatureSerializer.serializeInputAt
  dsimp only
  rw [List.getD_eq_getElem _ _ hi, CTxIn.serialize, copyInput]
  by_cases hn : i = s.nIn
  · simp [hn, serializeScriptCode_eq hp]
  · by_cases hb : s.fHashSingle = true ∨ s.fHashNone = true
    · simp [hn, hb, hzero]
    · simp [hn, hb]

/-- The streamed inputs are the edited inputs, or the one signed alone. -/
theorem serializeInputs_eq (hp : Parses s.scriptCode) (hn : s.nIn < s.txTo.vin.length)
    {vin : List CTxIn}
    (hvin : vin = s.txTo.vin.mapIdx (copyInput (findAndDelete s.scriptCode [OP_CODESEPARATOR]).1
      s.nIn (s.fHashSingle || s.fHashNone))) :
    writeCompactSize s.nInputs ++ (List.range s.nInputs).flatMap s.serializeInput =
      serializeVector CTxIn.serialize
        (if s.fAnyoneCanPay then (vin.set 0 (vin.getD s.nIn CTxIn.null)).take 1 else vin) := by
  have hlen : vin.length = s.txTo.vin.length := by rw [hvin, List.length_mapIdx]
  have hget : ∀ (i : ℕ) (hi : i < vin.length), s.serializeInputAt i = vin[i].serialize := by
    intro i hi
    subst hvin
    rw [serializeInputAt_eq hp (by omega), List.getElem_mapIdx]
  unfold CTransactionSignatureSerializer.nInputs
  by_cases ha : s.fAnyoneCanPay = true
  · have hone : (vin.set 0 (vin.getD s.nIn CTxIn.null)).take 1 = [vin[s.nIn]] := by
      cases vin with
      | nil => simp at hlen; omega
      | cons txin vin => simp [hlen, hn]
    rw [if_pos ha, if_pos ha, hone]
    simp [serializeVector, CTransactionSignatureSerializer.serializeInput, ha, hget _ (hlen ▸ hn)]
  · rw [if_neg ha, if_neg ha, ← hlen, serializeVector]
    refine congrArg _ (flatMap_range fun i hi => ?_)
    rw [CTransactionSignatureSerializer.serializeInput, if_neg ha, hget i hi]

/-- The streamed outputs are those of the copy. -/
theorem serializeOutputs_eq (hsingle : s.fHashSingle = true → s.nIn < s.txTo.vout.length) :
    writeCompactSize s.nOutputs ++ (List.range s.nOutputs).flatMap s.serializeOutput =
      serializeVector CTxOut.serialize
        (if s.fHashNone then [] else if s.fHashSingle then lockInSingle s.nIn s.txTo.vout
          else s.txTo.vout) := by
  unfold CTransactionSignatureSerializer.nOutputs
  by_cases hnone : s.fHashNone = true
  · simp [hnone, serializeVector]
  · rw [if_neg hnone, if_neg hnone]
    by_cases hs : s.fHashSingle = true
    · have hlt := hsingle hs
      have hlen : (lockInSingle s.nIn s.txTo.vout).length = s.nIn + 1 := by
        simp [lockInSingle]
        omega
      rw [if_pos hs, if_pos hs, ← hlen, serializeVector]
      refine congrArg _ (flatMap_range fun i hi => ?_)
      have hle : i < s.nIn + 1 := hlen ▸ hi
      simp only [CTransactionSignatureSerializer.serializeOutput, hs, lockInSingle,
        List.getElem_mapIdx, List.getElem_take]
      rcases Nat.lt_succ_iff_lt_or_eq.mp hle with h | h
      · simp [h, h.ne]
      · simp [h, hlt]
    · rw [if_neg hs, if_neg hs, serializeVector]
      refine congrArg _ (flatMap_range fun i hi => ?_)
      simp [CTransactionSignatureSerializer.serializeOutput, hs, hi]

end Stream

/-! ## The two signature hashes -/

/-- The serializer writes the serialization of the copy with the edited inputs and outputs. -/
theorem serializer_eq {scriptCode : Bytes} (hp : Parses scriptCode) (txTo : CTransaction)
    {nIn : ℕ} (hn : nIn < txTo.vin.length) (nHashType : Int32)
    (hsingle : (nHashType &&& 0x1f == SIGHASH_SINGLE) = true → nIn < txTo.vout.length)
    {vin : List CTxIn}
    (hvin : vin = txTo.vin.mapIdx (copyInput (findAndDelete scriptCode [OP_CODESEPARATOR]).1 nIn
      (nHashType &&& 0x1f == SIGHASH_SINGLE || nHashType &&& 0x1f == SIGHASH_NONE))) :
    (CTransactionSignatureSerializer.new txTo scriptCode nIn nHashType).serialize =
      CTransaction.serialize { txTo with
        vin := if nHashType &&& SIGHASH_ANYONECANPAY != 0 then
          (vin.set 0 (vin.getD nIn CTxIn.null)).take 1 else vin
        vout := if nHashType &&& 0x1f == SIGHASH_NONE then []
          else if nHashType &&& 0x1f == SIGHASH_SINGLE then lockInSingle nIn txTo.vout
          else txTo.vout } := by
  have hin := serializeInputs_eq (s := .new txTo scriptCode nIn nHashType) hp hn hvin
  have hout := serializeOutputs_eq (s := .new txTo scriptCode nIn nHashType) hsingle
  rw [CTransactionSignatureSerializer.serialize, hin, hout]
  rfl

/-- The serializer writes the bytes of the modified copy, and one is returned in the same
cases. -/
theorem signatureHashStream_eq {scriptCode : Bytes} (hp : Parses scriptCode)
    (txTo : CTransaction) (nIn : ℕ) (nHashType : Int32) :
    signatureHashStream scriptCode txTo nIn nHashType =
      (signatureHashCopy scriptCode txTo nIn nHashType).map fun txTmp =>
        txTmp.serialize ++ serializeInt32 nHashType := by
  unfold signatureHashStream signatureHashCopy
  by_cases hn : nIn ≥ txTo.vin.length
  · rw [if_pos hn, if_pos hn, Option.map_none]
  · rw [if_neg hn, if_neg hn]
    have hstream := @serializer_eq scriptCode hp txTo nIn (by omega) nHashType
    cases hnone : nHashType &&& 0x1f == SIGHASH_NONE with
    | true =>
      have hnot : (nHashType &&& 0x1f == SIGHASH_SINGLE) = false := by
        rw [beq_iff_eq.mp hnone]
        decide
      rw [hnone, hnot] at hstream
      have h := hstream (by simp) (zeroSequences_eq _ _ _)
      simp only [hnot, Bool.false_and, Bool.false_eq_true, if_false, if_true, Option.map_some, h]
      split <;> rfl
    | false =>
      cases hsingle : nHashType &&& 0x1f == SIGHASH_SINGLE with
      | true =>
        by_cases hout : nIn ≥ txTo.vout.length
        · simp [hout]
        · rw [hnone, hsingle] at hstream
          have h := hstream (by omega) (zeroSequences_eq _ _ _)
          simp only [hout, decide_false, Bool.and_false, Bool.false_eq_true, if_false, if_true,
            Option.map_some, h]
          split <;> rfl
      | false =>
        rw [hnone, hsingle] at hstream
        have h := hstream (by simp) (blankScripts_eq _ _ _)
        simp only [Bool.false_and, Bool.false_eq_true, if_false, Option.map_some, h]
        split <;> rfl

/-- Both signature hashes hash the same bytes or both return one, whatever the hash. -/
theorem signatureHash_eq_old {scriptCode : Bytes} (hp : Parses scriptCode) (txTo : CTransaction)
    (nIn : ℕ) (nHashType : Int32) :
    (signatureHashStream scriptCode txTo nIn nHashType =
      (signatureHashCopy scriptCode txTo nIn nHashType).map fun txTmp =>
        txTmp.serialize ++ serializeInt32 nHashType) ∧
    ∀ H : Bytes → UInt256, signatureHash H scriptCode txTo nIn nHashType =
      signatureHashOld H scriptCode txTo nIn nHashType := by
  have hstream := signatureHashStream_eq hp txTo nIn nHashType
  refine ⟨hstream, fun H => ?_⟩
  rw [signatureHash, signatureHashOld, hstream]
  cases signatureHashCopy scriptCode txTo nIn nHashType <;> rfl

/-- A script code of one separator, signed with `SIGHASH_SINGLE` and `ANYONECANPAY`. -/
theorem signatureHash_eq_old_separator :
    (signatureHashStream [OP_CODESEPARATOR] ⟨1, [CTxIn.null], [CTxOut.null], 0⟩ 0 0x83 =
      (signatureHashCopy [OP_CODESEPARATOR] ⟨1, [CTxIn.null], [CTxOut.null], 0⟩ 0 0x83).map
        fun txTmp => txTmp.serialize ++ serializeInt32 0x83) ∧
    ∀ H : Bytes → UInt256,
      signatureHash H [OP_CODESEPARATOR] ⟨1, [CTxIn.null], [CTxOut.null], 0⟩ 0 0x83 =
        signatureHashOld H [OP_CODESEPARATOR] ⟨1, [CTxIn.null], [CTxOut.null], 0⟩ 0 0x83 :=
  have hp : Parses [OP_CODESEPARATOR] := @Parses.cons _ _ ⟨OP_CODESEPARATOR, []⟩ rfl .nil
  signatureHash_eq_old hp _ 0 0x83

end Ticoin
