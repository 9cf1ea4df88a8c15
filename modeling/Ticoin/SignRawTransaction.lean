import Ticoin.CanonicalFormat
import Ticoin.Coins
import Ticoin.CombineSignatures
import Ticoin.InterpreterLimits
import Ticoin.Lib.Outcome
import Ticoin.SigCache
import Ticoin.WireFormat

/-!
# rpcrawtransaction.cpp : signrawtransaction

The call is given variants of a transaction, which several parties may have signed. It signs what it
can of the first one, and merges the script signatures of all variants into each input, one after
the other. A signature is over the transaction without its script signatures, so what was merged
before does not matter (`checkSigFor_congr`).

The input of a variant is read at the index of the input of the first one. If all these reads are
in range the merged transaction is known (`mergeVariants_eq`), and otherwise there is none
(`inRange_of_mergeVariants`).
-/

namespace Ticoin

open Codec EvalScript

/-! ## Variants -/

theorem length_unserialize_lt {s rest : Bytes} {tx : CTransaction}
    (h : CTransaction.unserialize s = .ok (tx, rest)) : rest.length < s.length := by
  have hversion : (serializeInt32 tx.nVersion).length = 4 := length_leBytes 4 _
  rw [CTransaction.canonical h, CTransaction.serialize]
  simp only [List.length_append, hversion]
  omega

/-- The loop that decodes the variants, one after the other. -/
def decodeVariants (ssData : Bytes) : Option (List CTransaction) :=
  if ssData = [] then some []
  else
    match _h : CTransaction.unserialize ssData with
    | .error _ => none
    | .ok (tx, ssData) => (decodeVariants ssData).map (tx :: ·)
termination_by ssData.length
decreasing_by exact length_unserialize_lt (by assumption)

/-- Variants that are written one after the other are decoded. -/
theorem decodeVariants_serialize : ∀ {variants : List CTransaction},
    (∀ txv ∈ variants, txv.serialize.length ≤ MAX_SIZE) →
    decodeVariants (variants.flatMap CTransaction.serialize) = some variants
  | [], _ => by rw [List.flatMap_nil, decodeVariants, if_pos rfl]
  | txv :: variants, h => by
    obtain ⟨htxv, hvariants⟩ := List.forall_mem_cons.mp h
    have hread := CTransaction.reads htxv (variants.flatMap CTransaction.serialize)
    have hne : txv.serialize ++ variants.flatMap CTransaction.serialize ≠ [] :=
      List.append_ne_nil_of_left_ne_nil (List.ne_nil_of_length_pos txv.length_serialize_pos) _
    rw [List.flatMap_cons, decodeVariants, if_neg hne]
    split
    · rename_i herror
      rw [hread] at herror
      cases herror
    · rename_i hok
      rw [hread] at hok
      cases hok
      rw [decodeVariants_serialize hvariants]
      rfl

namespace CTransaction

/-- The script signature of an input. -/
def scriptSigAt (tx : CTransaction) (i : ℕ) : Bytes := (tx.vin.getD i CTxIn.null).scriptSig

def setScriptSig (i : ℕ) (scriptSig : Bytes) (tx : CTransaction) : CTransaction :=
  { tx with vin := tx.vin.modify i fun txin => { txin with scriptSig := scriptSig } }

/-- The transaction without its script signatures. -/
def unsigned (tx : CTransaction) : CTransaction :=
  { tx with vin := tx.vin.map fun txin => { txin with scriptSig := [] } }

end CTransaction

/-! ## The calls of a script -/

/-- What a key store is asked for. -/
structure SigningKeys where
  getKey : CKeyID → Option CKey
  getPubKey : CKeyID → Option CPubKey
  getCScript : UInt160 → Option Bytes
  /-- the signature of a hash by a key -/
  sign : CKey → UInt256 → Option Bytes

/-- What the loop over the inputs reads : the key store and the coins, the type of the signatures,
and how signatures are verified. What a failed evaluation of a script leaves on the stack is not
modelled, but that there is no element that is too large. -/
structure SignEnv where
  hashes : ScriptHashes
  verify : CPubKey → UInt256 → Bytes → Bool
  keystore : SigningKeys
  view : UInt256 → Option CCoins
  nHashType : Int32
  leftover : Bytes → { stack : Stack // Small stack }

namespace SignEnv

variable (env : SignEnv)

/-- `CheckSig` for an input of a transaction, less the cache, which does not change the answer. -/
def checkSigFor (txTo : CTransaction) (nIn : ℕ) (c : SigCheck) : Bool :=
  match CheckSigCall.toVerify env.hashes.hash
    ⟨c.vchSig, c.vchPubKey, c.scriptCode, txTo, nIn, 0, 0, fun _ => 0⟩ with
  | none => false
  | some (sighash, vchSig, pubkey) => env.verify pubkey sighash vchSig

/-- The flags of the last verification. -/
def verifyFlags : UInt32 := SCRIPT_VERIFY_P2SH ||| SCRIPT_VERIFY_STRICTENC

/-- `VerifyScript` for an input of a transaction. -/
def verifies (txTo : CTransaction) (nIn : ℕ) (scriptSig scriptPubKey : Bytes) : Bool :=
  (verifyScript (checkSignature (env.checkSigFor txTo nIn) verifyFlags) env.hashes verifyFlags
    scriptSig scriptPubKey).1.toOption.isSome

/-- The stack of a script signature, from the bottom, as it is evaluated for no transaction. -/
def stackOf (scriptSig : Bytes) : List Bytes :=
  match (evalScript (checkSignature (env.checkSigFor ⟨1, [], [], 0⟩ 0) SCRIPT_VERIFY_STRICTENC)
    env.hashes [] scriptSig).1 with
  | .ok stack => stack.reverse
  | .error _ => (env.leftover scriptSig).1.reverse

/-- `CombineSignatures` of two scripts. -/
def combineScripts (txTo : CTransaction) (nIn : ℕ) (scriptPubKey scriptSig1 scriptSig2 : Bytes) :
    Option Bytes := do
  let (_, txType, vSolutions) ← solver scriptPubKey
  combineSignatures (env.checkSigFor txTo nIn) scriptPubKey txType vSolutions
    (env.stackOf scriptSig1) (env.stackOf scriptSig2)

/-! ## Signing -/

/-- `Sign1` : what it appends to the script, if the store has the key. -/
def sign1 (address : CKeyID) (hash : UInt256) : Option Bytes := do
  let key ← env.keystore.getKey address
  let vchSig ← env.keystore.sign key hash
  return pushVector (vchSig ++ [env.nHashType.toInt8.toUInt8])

/-- `SignN`, with the number of signatures that are still required. -/
def signN (hash : UInt256) : List Bytes → ℕ → Bytes
  | pubkey :: pubkeys, nRequired + 1 =>
    match env.sign1 (pubKeyID env.hashes.hash160 pubkey) hash with
    | none => signN hash pubkeys (nRequired + 1)
    | some sig => sig ++ signN hash pubkeys nRequired
  | _, _ => []

/-- `Solver` with a key store : the script that it returns. -/
def solverSign (scriptPubKey : Bytes) (hash : UInt256) : Bytes :=
  match solver scriptPubKey with
  | some (true, .pubkey, vSolutions) =>
    (env.sign1 (pubKeyID env.hashes.hash160 (vSolutions.headD [])) hash).getD []
  | some (true, .pubkeyhash, vSolutions) =>
    match env.sign1 (uint160 (vSolutions.headD [])) hash with
    | none => []
    | some sig =>
      sig ++ pushVector ((env.keystore.getPubKey (uint160 (vSolutions.headD []))).getD ⟨[]⟩).vch
  | some (true, .scripthash, vSolutions) =>
    (env.keystore.getCScript (uint160 (vSolutions.headD []))).getD []
  | some (true, .multisig, multisigdata) =>
    OP_0 :: env.signN hash (multisigdata.drop 1).dropLast
      ((multisigdata.headD []).headD 0).toNat
  | _ => []

/-- `SignSignature` : the script signature that it leaves. -/
def signSignature (fromPubKey : Bytes) (txTo : CTransaction) (nIn : ℕ) : Bytes :=
  match solver fromPubKey with
  | some (true, .scripthash, vSolutions) =>
    match env.keystore.getCScript (uint160 (vSolutions.headD [])) with
    | none => []
    | some subscript =>
      env.solverSign subscript
        (signatureHash env.hashes.hash subscript txTo nIn env.nHashType) ++ pushVector subscript
  | _ =>
    env.solverSign fromPubKey (signatureHash env.hashes.hash fromPubKey txTo nIn env.nHashType)

/-! ## Merging -/

/-- The script of an output, if it is known and unspent. -/
def prevPubKey (prevout : COutPoint) : Option Bytes := do
  let coins ← env.view prevout.hash
  if coins.isAvailable prevout.n.toNat then
    (coins.vout[prevout.n.toNat]?).map CTxOut.scriptPubKey
  else none

/-- `fHashSingle`. -/
def fHashSingle : Bool := env.nHashType &&& ~~~SIGHASH_ANYONECANPAY == SIGHASH_SINGLE

/-- Merge in the signatures of one variant. -/
def mergeVariant (i : ℕ) (prevPubKey : Bytes) (mergedTx txv : CTransaction) : Eval CTransaction :=
  match txv.vin[i]? with
  | none => .error .outOfRange
  | some txin =>
    match env.combineScripts mergedTx i prevPubKey (mergedTx.scriptSigAt i) txin.scriptSig with
    | none => .error .assertFailed
    | some scriptSig => .ok (mergedTx.setScriptSig i scriptSig)

/-- One round of the loop over the inputs : the merged transaction, and whether it is complete. -/
def mergeInput (txVariants : List CTransaction) (s : CTransaction × Bool) (i : ℕ) :
    Eval (CTransaction × Bool) :=
  let (mergedTx, fComplete) := s
  match env.prevPubKey (mergedTx.vin.getD i CTxIn.null).prevout with
  | none => .ok (mergedTx, false)
  | some prevPubKey => do
    let mergedTx := mergedTx.setScriptSig i []
    -- only sign SIGHASH_SINGLE if there's a corresponding output
    let mergedTx :=
      if !env.fHashSingle || i < mergedTx.vout.length then
        mergedTx.setScriptSig i (env.signSignature prevPubKey mergedTx i)
      else mergedTx
    -- and merge in other signatures
    let mergedTx ← txVariants.foldlM (env.mergeVariant i prevPubKey) mergedTx
    return (mergedTx, fComplete && env.verifies mergedTx i (mergedTx.scriptSigAt i) prevPubKey)

/-- The loop over the inputs of the first of some variants. -/
def mergeVariants (tx : CTransaction) (others : List CTransaction) : Eval (CTransaction × Bool) :=
  (List.range tx.vin.length).foldlM (env.mergeInput (tx :: others)) (tx, true)

/-- `signrawtransaction`, once its other parameters are read. -/
def signrawtransaction (txData : Bytes) : Except String (Eval (CTransaction × Bool)) :=
  match decodeVariants txData with
  | none => .error "TX decode failed"
  | some [] => .error "Missing transaction"
  | some (tx :: others) => .ok (env.mergeVariants tx others)

end SignEnv

/-! ## What is signed -/

section Unsigned

variable {tx tx' : CTransaction}

@[simp] theorem unsigned_setScriptSig (i : ℕ) (scriptSig : Bytes) (tx : CTransaction) :
    (tx.setScriptSig i scriptSig).unsigned = tx.unsigned := by
  unfold CTransaction.unsigned CTransaction.setScriptSig
  congr 1
  refine List.ext_getElem? fun j => ?_
  rw [List.getElem?_map, List.getElem?_map, List.getElem?_modify]
  cases tx.vin[j]? with
  | none => rfl
  | some txin => by_cases h : i = j <;> simp [h]

/-- A signature hash is that of the transaction without its script signatures. -/
theorem signatureHash_unsigned (H : Bytes → UInt256) (scriptCode : Bytes) (tx : CTransaction)
    (nIn : ℕ) (nHashType : Int32) : signatureHash H scriptCode tx.unsigned nIn nHashType =
      signatureHash H scriptCode tx nIn nHashType := by
  have hlen : tx.unsigned.vin.length = tx.vin.length := List.length_map _
  have hget : ∀ n, (tx.unsigned.vin.getD n CTxIn.null).prevout =
      (tx.vin.getD n CTxIn.null).prevout ∧
        (tx.unsigned.vin.getD n CTxIn.null).nSequence = (tx.vin.getD n CTxIn.null).nSequence := by
    intro n
    unfold CTransaction.unsigned
    rw [show CTxIn.null = { CTxIn.null with scriptSig := [] } from rfl, List.getD_map]
    exact ⟨rfl, rfl⟩
  have hinput : (CTransactionSignatureSerializer.new tx.unsigned scriptCode nIn
      nHashType).serializeInput =
        (CTransactionSignatureSerializer.new tx scriptCode nIn nHashType).serializeInput := by
    funext n
    unfold CTransactionSignatureSerializer.serializeInput
      CTransactionSignatureSerializer.serializeInputAt CTransactionSignatureSerializer.new
    dsimp only
    rw [(hget _).1, (hget _).2]
  have hserialize : (CTransactionSignatureSerializer.new tx.unsigned scriptCode nIn
      nHashType).serialize =
        (CTransactionSignatureSerializer.new tx scriptCode nIn nHashType).serialize := by
    unfold CTransactionSignatureSerializer.serialize CTransactionSignatureSerializer.nInputs
    rw [hinput]
    unfold CTransactionSignatureSerializer.new
    dsimp only
    rw [hlen]
    rfl
  unfold signatureHash signatureHashStream
  dsimp only
  rw [hlen, hserialize]
  rfl

end Unsigned

namespace SignEnv

variable {env : SignEnv} {tx tx' : CTransaction}

theorem checkSigFor_congr (h : tx.unsigned = tx'.unsigned) (i : ℕ) :
    env.checkSigFor tx i = env.checkSigFor tx' i := by
  have hhash : ∀ scriptCode nHashType, signatureHash env.hashes.hash scriptCode tx i nHashType =
      signatureHash env.hashes.hash scriptCode tx' i nHashType := fun scriptCode nHashType => by
    rw [← signatureHash_unsigned, h, signatureHash_unsigned]
  funext c
  unfold checkSigFor CheckSigCall.toVerify
  simp only [hhash]

theorem signSignature_congr (h : tx.unsigned = tx'.unsigned) (fromPubKey : Bytes) (i : ℕ) :
    env.signSignature fromPubKey tx i = env.signSignature fromPubKey tx' i := by
  have hhash : ∀ scriptCode nHashType, signatureHash env.hashes.hash scriptCode tx i nHashType =
      signatureHash env.hashes.hash scriptCode tx' i nHashType := fun scriptCode nHashType => by
    rw [← signatureHash_unsigned, h, signatureHash_unsigned]
  unfold signSignature
  simp only [hhash]

end SignEnv

/-! ## Combining does not fail -/

/-- Every script is solved, and one with several keys has data of them. -/
theorem exists_solver (script : Bytes) : ∃ fSolved type data,
    solver script = some (fSolved, type, data) ∧
      (type = .multisig → ∃ m n pubkeys, data = [m] :: (pubkeys ++ [[n]])) := by
  rcases solver_cases script with ⟨ops, type, data, hops, htemplate, hsolver⟩ | hsolver
  · rw [hsolver]
    unfold templateVerdict
    by_cases htype : type = .multisig
    · rw [if_pos htype]
      subst htype
      cases htemplate with
      | @multisig opM opN keys m n =>
        obtain ⟨ok, hcheck, -⟩ := checkMultisig_eq m n keys
        rw [hcheck]
        exact ⟨ok, _, _, rfl, fun _ => ⟨m, n, _, rfl⟩⟩
    · rw [if_neg htype]
      exact ⟨true, _, _, rfl, fun h => absurd h htype⟩
  · exact ⟨false, _, _, hsolver, nofun⟩

/-- No assertion of `CombineSignatures` fails. -/
theorem exists_combineSignatures (checkSig : SigCheck → Bool) (scriptPubKey : Bytes)
    (txType : TxnOutType) (vSolutions sigs1 sigs2 : List Bytes)
    (h : txType = .multisig → ∃ m n pubkeys, vSolutions = [m] :: (pubkeys ++ [[n]])) :
    ∃ result, combineSignatures checkSig scriptPubKey txType vSolutions sigs1 sigs2 =
      some result := by
  unfold combineSignatures
  cases txType with
  | nonstandard | nullData | pubkey | pubkeyhash =>
    dsimp only
    split <;> exact ⟨_, rfl⟩
  | multisig =>
    obtain ⟨m, n, pubkeys, rfl⟩ := h rfl
    exact ⟨_, combineMultisig_eq checkSig scriptPubKey m n pubkeys sigs1 sigs2⟩
  | scripthash =>
    dsimp only
    split
    · exact ⟨_, rfl⟩
    split
    · exact ⟨_, rfl⟩
    rename_i hlast _
    have hlt : sigs1.dropLast.length < sigs1.length := by
      rw [List.length_dropLast]
      refine Nat.sub_lt (List.length_pos_iff.mpr ?_) Nat.one_pos
      rintro rfl
      exact hlast rfl
    obtain ⟨fSolved, type, data, hsolver, hdata⟩ := exists_solver (sigs1.getLastD [])
    rw [hsolver]
    dsimp only
    obtain ⟨result, hresult⟩ := exists_combineSignatures checkSig (sigs1.getLastD []) type data
      sigs1.dropLast sigs2.dropLast hdata
    exact ⟨_, by rw [hresult]; rfl⟩
termination_by sigs1.length

/-- Two scripts are combined. -/
theorem SignEnv.exists_combineScripts (env : SignEnv) (txTo : CTransaction) (nIn : ℕ)
    (scriptPubKey scriptSig1 scriptSig2 : Bytes) : ∃ scriptSig,
      env.combineScripts txTo nIn scriptPubKey scriptSig1 scriptSig2 = some scriptSig := by
  obtain ⟨fSolved, type, data, hsolver, hdata⟩ := exists_solver scriptPubKey
  obtain ⟨result, hresult⟩ := exists_combineSignatures (env.checkSigFor txTo nIn) scriptPubKey type
    data (env.stackOf scriptSig1) (env.stackOf scriptSig2) hdata
  refine ⟨result, ?_⟩
  unfold SignEnv.combineScripts
  rw [hsolver]
  exact hresult

/-! ## The loops -/

theorem scriptSigAt_setScriptSig {tx : CTransaction} {i : ℕ} (hi : i < tx.vin.length)
    (scriptSig : Bytes) : (tx.setScriptSig i scriptSig).scriptSigAt i = scriptSig := by
  unfold CTransaction.scriptSigAt CTransaction.setScriptSig
  rw [List.getD_eq_getElem?_getD, List.getElem?_modify, List.getElem?_eq_getElem hi]
  simp

theorem scriptSigAt_setScriptSig_of_ne {tx : CTransaction} {i j : ℕ} (h : i ≠ j)
    (scriptSig : Bytes) : (tx.setScriptSig i scriptSig).scriptSigAt j = tx.scriptSigAt j := by
  unfold CTransaction.scriptSigAt CTransaction.setScriptSig
  rw [List.getD_eq_getElem?_getD, List.getElem?_modify, List.getD_eq_getElem?_getD]
  cases tx.vin[j]? <;> simp [h]

theorem length_vin_of_unsigned {tx tx' : CTransaction} (h : tx.unsigned = tx'.unsigned) :
    tx.vin.length = tx'.vin.length := by
  have hvin := congrArg (fun tx => tx.vin.length) h
  unfold CTransaction.unsigned at hvin
  simpa using hvin

theorem prevout_of_unsigned {tx tx' : CTransaction} (h : tx.unsigned = tx'.unsigned) (i : ℕ) :
    (tx.vin.getD i CTxIn.null).prevout = (tx'.vin.getD i CTxIn.null).prevout := by
  have hvin := congrArg (fun tx => (tx.vin[i]?).map CTxIn.prevout) h
  unfold CTransaction.unsigned at hvin
  simp only [List.getElem?_map, Option.map_map] at hvin
  rw [List.getD_eq_getElem?_getD, List.getD_eq_getElem?_getD]
  cases hget : tx.vin[i]? <;> cases hget' : tx'.vin[i]? <;> simp_all

namespace SignEnv

variable (env : SignEnv) (tx : CTransaction) (others : List CTransaction)

/-- The script that an input of the first variant spends. -/
def spent (i : ℕ) : Option Bytes := env.prevPubKey (tx.vin.getD i CTxIn.null).prevout

/-- What the call itself signs of an input. -/
def freshScript (i : ℕ) (prevPubKey : Bytes) : Bytes :=
  if !env.fHashSingle || i < tx.vout.length then env.signSignature prevPubKey tx i else []

/-- Scripts that are merged in, one after the other. -/
def mergedScript (i : ℕ) (prevPubKey : Bytes) (scriptSig : Bytes) (scripts : List Bytes) : Bytes :=
  scripts.foldl (fun merged script => (env.combineScripts tx i prevPubKey merged script).getD [])
    scriptSig

/-- The script signature of an input in the end. -/
def finalScript (i : ℕ) (prevPubKey : Bytes) : Bytes :=
  env.mergedScript tx i prevPubKey (env.freshScript tx i prevPubKey)
    ((tx :: others).map fun txv => txv.scriptSigAt i)

/-- The other variants have all inputs of the first one whose coins are known. -/
def InRange : Prop :=
  ∀ i < tx.vin.length, env.spent tx i ≠ none → ∀ txv ∈ others, i < txv.vin.length

variable {env tx others}

theorem combineScripts_congr {tx' : CTransaction} (h : tx.unsigned = tx'.unsigned) (i : ℕ) :
    env.combineScripts tx i = env.combineScripts tx' i := by
  unfold combineScripts
  rw [checkSigFor_congr h]

theorem verifies_congr {tx' : CTransaction} (h : tx.unsigned = tx'.unsigned) (i : ℕ) :
    env.verifies tx i = env.verifies tx' i := by
  unfold verifies
  rw [checkSigFor_congr h]

/-- The scripts of variants that have the input are merged. -/
theorem foldlM_mergeVariant {i : ℕ} {prevPubKey : Bytes} : ∀ {variants : List CTransaction}
    {mergedTx : CTransaction}, mergedTx.unsigned = tx.unsigned → i < mergedTx.vin.length →
    (∀ txv ∈ variants, i < txv.vin.length) →
    ∃ mergedTx', variants.foldlM (env.mergeVariant i prevPubKey) mergedTx = .ok mergedTx' ∧
      mergedTx'.unsigned = tx.unsigned ∧
      mergedTx'.scriptSigAt i = env.mergedScript tx i prevPubKey (mergedTx.scriptSigAt i)
        (variants.map fun txv => txv.scriptSigAt i) ∧
      ∀ j, i ≠ j → mergedTx'.scriptSigAt j = mergedTx.scriptSigAt j
  | [], mergedTx, h, _, _ => ⟨mergedTx, rfl, h, rfl, fun _ _ => rfl⟩
  | txv :: variants, mergedTx, h, hi, hrange => by
    obtain ⟨htxv, hvariants⟩ := List.forall_mem_cons.mp hrange
    obtain ⟨scriptSig, hcombine⟩ := env.exists_combineScripts tx i prevPubKey
      (mergedTx.scriptSigAt i) (txv.scriptSigAt i)
    have hstep : env.mergeVariant i prevPubKey mergedTx txv =
        .ok (mergedTx.setScriptSig i scriptSig) := by
      have hget : txv.vin[i].scriptSig = txv.scriptSigAt i := by
        unfold CTransaction.scriptSigAt
        rw [List.getD_eq_getElem _ _ htxv]
      unfold mergeVariant
      rw [List.getElem?_eq_getElem htxv]
      dsimp only
      rw [hget, combineScripts_congr h, hcombine]
    have hlen : i < (mergedTx.setScriptSig i scriptSig).vin.length := by
      rwa [length_vin_of_unsigned (unsigned_setScriptSig i scriptSig mergedTx)]
    obtain ⟨mergedTx', hrun, hunsigned, hat, hother⟩ := foldlM_mergeVariant
      ((unsigned_setScriptSig i scriptSig mergedTx).trans h) hlen hvariants
    refine ⟨mergedTx', ?_, hunsigned, ?_, fun j hj => ?_⟩
    · rw [List.foldlM_cons, hstep]
      exact hrun
    · rw [hat, scriptSigAt_setScriptSig hi]
      unfold mergedScript
      rw [List.map_cons, List.foldl_cons, hcombine]
      rfl
    · rw [hother j hj, scriptSigAt_setScriptSig_of_ne hj]

/-- If variants are merged they have the input. -/
theorem lt_of_foldlM_mergeVariant {i : ℕ} {prevPubKey : Bytes} : ∀ {variants : List CTransaction}
    {mergedTx mergedTx' : CTransaction},
    variants.foldlM (env.mergeVariant i prevPubKey) mergedTx = .ok mergedTx' →
    ∀ txv ∈ variants, i < txv.vin.length
  | [], _, _, _ => nofun
  | txv :: variants, mergedTx, mergedTx', h => by
    rw [List.foldlM_cons] at h
    obtain ⟨next, hnext, hrest⟩ := Outcome.bind_eq_ok.mp h
    refine List.forall_mem_cons.mpr ⟨?_, lt_of_foldlM_mergeVariant hrest⟩
    by_contra hout
    unfold mergeVariant at hnext
    rw [List.getElem?_eq_none (not_lt.mp hout)] at hnext
    cases hnext

/-- What is signed afresh. -/
theorem started_spec {mergedTx started : CTransaction} {i : ℕ} {prevPubKey : Bytes}
    (h : mergedTx.unsigned = tx.unsigned) (hi : i < tx.vin.length)
    (hstarted : started = if !env.fHashSingle || i < (mergedTx.setScriptSig i []).vout.length then
      (mergedTx.setScriptSig i []).setScriptSig i
        (env.signSignature prevPubKey (mergedTx.setScriptSig i []) i)
      else mergedTx.setScriptSig i []) :
    started.unsigned = tx.unsigned ∧ started.scriptSigAt i = env.freshScript tx i prevPubKey ∧
      ∀ j, i ≠ j → started.scriptSigAt j = mergedTx.scriptSigAt j := by
  have hcleared := (unsigned_setScriptSig i [] mergedTx).trans h
  have hlen : i < mergedTx.vin.length := by rwa [length_vin_of_unsigned h]
  have hlen' : i < (mergedTx.setScriptSig i []).vin.length := by
    rwa [length_vin_of_unsigned hcleared]
  have hvout : (mergedTx.setScriptSig i []).vout = tx.vout := by
    have hunsigned := congrArg CTransaction.vout h
    exact hunsigned
  rw [hvout, signSignature_congr hcleared] at hstarted
  unfold freshScript
  subst hstarted
  split
  · refine ⟨(unsigned_setScriptSig _ _ _).trans hcleared, scriptSigAt_setScriptSig hlen' _,
      fun j hj => ?_⟩
    rw [scriptSigAt_setScriptSig_of_ne hj, scriptSigAt_setScriptSig_of_ne hj]
  · exact ⟨hcleared, scriptSigAt_setScriptSig hlen _,
      fun j hj => scriptSigAt_setScriptSig_of_ne hj _⟩

variable (env tx others) in
/-- What the first `k` rounds leave. -/
structure MergedTo (k : ℕ) (s : CTransaction × Bool) : Prop where
  unsigned : s.1.unsigned = tx.unsigned
  merged : ∀ i < k, ∀ prevPubKey, env.spent tx i = some prevPubKey →
    s.1.scriptSigAt i = env.finalScript tx others i prevPubKey
  complete : s.2 = true → ∀ i < k, ∃ prevPubKey, env.spent tx i = some prevPubKey ∧
    env.verifies tx i (env.finalScript tx others i prevPubKey) prevPubKey = true

/-- One round of the loop, if its reads are in range. -/
theorem MergedTo.step {i : ℕ} {s : CTransaction × Bool} (h : env.MergedTo tx others i s)
    (hi : i < tx.vin.length)
    (hrange : env.spent tx i ≠ none → ∀ txv ∈ others, i < txv.vin.length) :
    ∃ s', env.mergeInput (tx :: others) s i = .ok s' ∧ env.MergedTo tx others (i + 1) s' := by
  obtain ⟨mergedTx, fComplete⟩ := s
  have hunsigned : mergedTx.unsigned = tx.unsigned := h.unsigned
  have hspent : env.prevPubKey (mergedTx.vin.getD i CTxIn.null).prevout = env.spent tx i := by
    rw [prevout_of_unsigned hunsigned]
    rfl
  unfold mergeInput
  dsimp only
  rw [hspent]
  cases hprev : env.spent tx i with
  | none =>
    refine ⟨_, rfl, h.unsigned, fun j hj prevPubKey hj' => ?_, nofun⟩
    rcases Nat.lt_succ_iff_lt_or_eq.mp hj with hj | rfl
    · exact h.merged j hj prevPubKey hj'
    · rw [hprev] at hj'
      cases hj'
  | some prevPubKey =>
    dsimp only
    generalize hstarted : (if (!env.fHashSingle || decide (i < _)) = true then _ else _) = started
    obtain ⟨hstart, hfresh, hsame⟩ := started_spec hunsigned hi hstarted.symm
    have hlen : i < started.vin.length := by rwa [length_vin_of_unsigned hstart]
    have hvariants : ∀ txv ∈ tx :: others, i < txv.vin.length :=
      List.forall_mem_cons.mpr ⟨hi, hrange (by rw [hprev]; nofun)⟩
    obtain ⟨merged, hrun, hmerged, hat, hother⟩ :=
      @foldlM_mergeVariant env tx i prevPubKey _ started hstart hlen hvariants
    rw [hfresh] at hat
    refine ⟨_, by rw [hrun]; rfl, hmerged, fun j hj prevPubKey' hj' => ?_, fun hall j hj => ?_⟩
    · rcases Nat.lt_succ_iff_lt_or_eq.mp hj with hj | rfl
      · dsimp only
        rw [hother j hj.ne', hsame j hj.ne']
        exact h.merged j hj prevPubKey' hj'
      · rw [hprev] at hj'
        cases hj'
        exact hat
    · obtain ⟨hcomplete, hverifies⟩ := Bool.and_eq_true_iff.mp hall
      rcases Nat.lt_succ_iff_lt_or_eq.mp hj with hj | rfl
      · exact h.complete hcomplete j hj
      · rw [verifies_congr hmerged, hat] at hverifies
        exact ⟨prevPubKey, hprev, hverifies⟩

/-- A round that ends has read its input of all variants. -/
theorem lt_of_mergeInput {i : ℕ} {s s' : CTransaction × Bool} (h : s.1.unsigned = tx.unsigned)
    (hstep : env.mergeInput (tx :: others) s i = .ok s') (hspent : env.spent tx i ≠ none) :
    ∀ txv ∈ others, i < txv.vin.length := by
  have hprev : env.prevPubKey (s.1.vin.getD i CTxIn.null).prevout = env.spent tx i := by
    rw [prevout_of_unsigned h]
    rfl
  unfold mergeInput at hstep
  dsimp only at hstep
  rw [hprev] at hstep
  cases hget : env.spent tx i with
  | none => exact absurd hget hspent
  | some prevPubKey =>
    rw [hget] at hstep
    obtain ⟨merged, hrun, -⟩ := Outcome.bind_eq_ok.mp hstep
    exact (List.forall_mem_cons.mp (lt_of_foldlM_mergeVariant hrun)).2

/-- The first rounds, if their reads are in range. -/
theorem mergedTo_of_inRange : ∀ {k : ℕ}, k ≤ tx.vin.length →
    (∀ i < k, env.spent tx i ≠ none → ∀ txv ∈ others, i < txv.vin.length) →
    ∃ s, (List.range k).foldlM (env.mergeInput (tx :: others)) (tx, true) = .ok s ∧
      env.MergedTo tx others k s
  | 0, _, _ => ⟨(tx, true), rfl, rfl, nofun, fun _ => nofun⟩
  | k + 1, hk, hrange => by
    obtain ⟨s, hrun, hs⟩ := mergedTo_of_inRange (Nat.le_of_succ_le hk)
      fun i hi => hrange i (Nat.lt_succ_of_lt hi)
    obtain ⟨s', hstep, hs'⟩ := hs.step hk (hrange k (Nat.lt_succ_self k))
    refine ⟨s', ?_, hs'⟩
    rw [List.range_succ, List.foldlM_append, hrun]
    change (env.mergeInput (tx :: others) s k >>= fun s => pure s) = _
    rw [hstep]
    rfl

/-- Rounds that end have read in range. -/
theorem inRange_of_foldlM : ∀ {k : ℕ} {s : CTransaction × Bool}, k ≤ tx.vin.length →
    (List.range k).foldlM (env.mergeInput (tx :: others)) (tx, true) = .ok s →
    ∀ i < k, env.spent tx i ≠ none → ∀ txv ∈ others, i < txv.vin.length
  | 0, _, _, _ => nofun
  | k + 1, s, hk, hrun => by
    rw [List.range_succ, List.foldlM_append] at hrun
    obtain ⟨s₁, hrun₁, hstep⟩ := Outcome.bind_eq_ok.mp hrun
    obtain ⟨s₂, hstep, -⟩ := Outcome.bind_eq_ok.mp hstep
    have hrange := inRange_of_foldlM (Nat.le_of_succ_le hk) hrun₁
    obtain ⟨s', hrun', hs'⟩ := mergedTo_of_inRange (Nat.le_of_succ_le hk) hrange
    cases hrun₁.symm.trans hrun'
    intro i hi hspent
    rcases Nat.lt_succ_iff_lt_or_eq.mp hi with hi | rfl
    · exact hrange i hi hspent
    · exact lt_of_mergeInput hs'.unsigned hstep hspent

/-- The merged transaction, if all reads are in range. -/
theorem mergeVariants_eq (h : env.InRange tx others) : ∃ s,
    env.mergeVariants tx others = .ok s ∧ env.MergedTo tx others tx.vin.length s :=
  mergedTo_of_inRange le_rfl h

/-- Otherwise there is none. -/
theorem inRange_of_mergeVariants {s : CTransaction × Bool}
    (h : env.mergeVariants tx others = .ok s) : env.InRange tx others :=
  inRange_of_foldlM le_rfl h

end SignEnv

end Ticoin
