import Ticoin.ConnectBlock
import Ticoin.CreateTransaction
import Ticoin.InterpreterLimits
import Ticoin.SolverTemplates
import Ticoin.TxMemPool

/-!
# main.cpp : accepting a transaction to the memory pool

`AcceptToMemoryPool` takes a loose transaction that is standard on the main network, has no conflict
in the pool, spends available outputs of the tip or of the pool, pays enough and has valid scripts.
Its view of the coins is the tip with the outputs of the pool behind it (`CTxMemPool.over`).

A transaction that is accepted was unknown, and everything that the checks read of the coins is at
the outpoints that it spends (`Accepted`, `acceptToMemoryPool_eq_ok`), so that it is accepted as well
on other views and pools that agree on these (`Accepted.congr`). Signatures are a parameter, and so is
the limiter of free transactions.
-/

namespace Ticoin

open Codec Outcome

/-! ## Standard scripts -/

/-- `HasCanonicalPushes` : no push could have been shorter. -/
def hasCanonicalPushes (script : Bytes) : Bool :=
  if script = [] then true
  else
    match _hop : getOp2 script with
    | (none, _) => false
    | (some op, pc) =>
      if op.opcode ≤ OP_16 ∧
        (op.opcode < OP_PUSHDATA1 ∧ op.opcode > OP_0 ∧ op.vch.length = 1 ∧
            op.vch.all (fun b => decide (b ≤ 16)) ∨
          op.opcode = OP_PUSHDATA1 ∧ op.vch.length < OP_PUSHDATA1.toNat ∨
          op.opcode = OP_PUSHDATA2 ∧ op.vch.length ≤ 0xFF ∨
          op.opcode = OP_PUSHDATA4 ∧ op.vch.length ≤ 0xFFFF) then false
      else hasCanonicalPushes pc
termination_by script.length
decreasing_by exact length_getOp2_lt (by assumption)

/-- `ScriptSigArgsExpected`. -/
def scriptSigArgsExpected (t : TxnOutType) (vSolutions : List Bytes) : ℤ :=
  match t with
  | .nonstandard => -1
  | .nullData => -1
  | .pubkey => 1
  | .pubkeyhash => 2
  | .multisig =>
    match vSolutions.head?.bind List.head? with
    | none => -1
    | some m => m.toNat + 1
  -- doesn't include args needed by the script
  | .scripthash => 1

/-- `IsStandard`, with the type. It is `none` if data that are not there are read. -/
def isStandard (scriptPubKey : Bytes) : Option (Bool × TxnOutType) := do
  let (solved, whichType, vSolutions) ← solver scriptPubKey
  if !solved then return (false, whichType)
  if whichType = .multisig then
    let m ← vSolutions.head? >>= List.head?
    let n ← vSolutions.getLast? >>= List.head?
    -- support up to x-of-3 multisig txns as standard
    return (!(n < 1 || n > 3 || m < 1 || m > n), whichType)
  return (decide (whichType ≠ .nonstandard), whichType)

/-! ## Standard transactions -/

def CTransaction.CURRENT_VERSION : Int32 := 1

def REJECT_DUPLICATE : UInt8 := 0x12
def REJECT_INSUFFICIENTFEE : UInt8 := 0x42

/-- What accepting reads beside the pool and the coins of the tip. -/
structure AcceptEnv where
  connect : ConnectEnv
  /-- `chainActive.Height()` -/
  nChainHeight : ℤ
  fees : TxFees
  hashes : ScriptHashes
  /-- checking a signature of an input -/
  checkSig : CTransaction → ℕ → EvalScript.SigCheck → Bool
  /-- whether free transactions have reached their limit -/
  fFreeLimited : Bool

/-- A reason of `IsStandardTx`, as it is reported. -/
def nonstandardTx (reason : String) : Check := stateDoS 0 REJECT_NONSTANDARD reason

/-- One input in `IsStandardTx`. -/
def checkStandardIn (txin : CTxIn) : Check := do
  -- biggest 'standard' txin is a 15-of-15 P2SH multisig with compressed keys
  stopIf (txin.scriptSig.length > 1650) (nonstandardTx "scriptsig-size")
  stopIf (!isPushOnly txin.scriptSig) (nonstandardTx "scriptsig-not-pushonly")
  stopIf (!hasCanonicalPushes txin.scriptSig) (nonstandardTx "scriptsig-non-canonical-push")

/-- One output in `IsStandardTx`, which counts those of `OP_RETURN`. -/
def checkStandardOut (fees : TxFees) (nDataOut : ℕ) (txout : CTxOut) : Except Stop ℕ :=
  match isStandard txout.scriptPubKey with
  | none => .error .undefined
  | some (standard, whichType) => do
    stopIf (!standard) (nonstandardTx "scriptpubkey")
    if whichType = .nullData then return nDataOut + 1
    stopIf (txout.isDust fees.nMinRelayTxFee) (nonstandardTx "dust")
    return nDataOut

/-- `IsStandardTx`. -/
def isStandardTx (env : AcceptEnv) (tx : CTransaction) : Check := do
  stopIf (tx.nVersion > CTransaction.CURRENT_VERSION ∨ tx.nVersion < 1) (nonstandardTx "version")
  -- treat non-final transactions as non-standard, as of the next block
  stopIf (!isFinalTx env.nChainHeight env.connect.nAdjustedTime tx (env.nChainHeight + 1) 0)
    (nonstandardTx "non-final")
  stopIf (tx.getSerializeSize ≥ MAX_STANDARD_TX_SIZE) (nonstandardTx "tx-size")
  tx.vin.forM checkStandardIn
  let nDataOut ← tx.vout.foldlM (checkStandardOut env.fees) 0
  -- only one OP_RETURN txout is permitted
  stopIf (nDataOut > 1) (nonstandardTx "multi-op-return")

/-- One input in `AreInputsStandard` : its script leaves as many values as the script that it spends
takes. -/
def isInputStandard (env : AcceptEnv) (view : FlatView) (tx : CTransaction) (input : CTxIn × ℕ) :
    Except Stop Bool := do
  let prev ← view.getOutputFor input.1
  match solver prev.scriptPubKey with
  | none => .error .undefined
  | some (solved, whichType, vSolutions) =>
    let nArgsExpected := scriptSigArgsExpected whichType vSolutions
    if !solved ∨ nArgsExpected < 0 then return false
    else
      match (evalScript (EvalScript.checkSignature (env.checkSig tx input.2) SCRIPT_VERIFY_NONE)
        env.hashes [] input.1.scriptSig).1 with
      | .error .assertFailed => .error .undefined
      | .error _ => return false
      | .ok stack =>
        if whichType ≠ .scripthash then return decide ((stack.length : ℤ) = nArgsExpected)
        else
          match stack with
          | [] => return false
          | subscript :: _ =>
            match solver subscript with
            | none => .error .undefined
            | some (solved2, whichType2, vSolutions2) =>
              let tmpExpected := scriptSigArgsExpected whichType2 vSolutions2
              return solved2 && decide (whichType2 ≠ .scripthash ∧ 0 ≤ tmpExpected ∧
                (stack.length : ℤ) = nArgsExpected + tmpExpected)

/-- `AreInputsStandard`. -/
def areInputsStandard (env : AcceptEnv) (view : FlatView) (tx : CTransaction) : Except Stop Bool :=
  if tx.isCoinBase then .ok true
  else tx.vin.zipIdx.allM (isInputStandard env view tx)

/-! ## AcceptToMemoryPool -/

/-- Why a transaction is not accepted : an output that it spends is of no transaction that is known
(`*pfMissingInputs`), or what the validation state has. -/
inductive NotAccepted
  | missingInputs
  | stop (stop : Stop)

def MEMPOOL_HEIGHT : ℤ := 0x7FFFFFFF

/-- `CCoinsViewMemPool` : the pool behind the coins of the tip. -/
def CTxMemPool.over (pool : CTxMemPool) (tip : FlatView) : FlatView where
  coins txid := (tip.coins txid).or
    (pool.mapTx[txid]?.map fun entry => CCoins.ofTx entry.tx MEMPOOL_HEIGHT)
  best := tip.best

variable (H : Bytes → UInt256)

/-- The checks before the coins are looked at. -/
def checkLoose (env : AcceptEnv) (pool : CTxMemPool) (tx : CTransaction) : Check := do
  checkTransaction tx
  -- coinbase is only valid in a block, not as a loose transaction
  stopIf tx.isCoinBase (stateDoS 100 REJECT_INVALID "coinbase")
  (if env.connect.params.networkID = .main then isStandardTx env tx else .ok ())
  -- is it already in the memory pool ?
  stopIf (pool.mapTx.contains (tx.getHash H)) (.error .unreported)
  -- replacement is disabled
  stopIf (tx.vin.any fun txin => pool.mapNextTx.contains txin.prevout) (.error .unreported)

/-- The checks of the fee. -/
def checkFees (env : AcceptEnv) (view : FlatView) (tx : CTransaction)
    (fLimitFree fRejectInsaneFee : Bool) : Check := do
  let nValueIn ← view.getValueIn tx
  let nValueOut ← tx.valueOut
  let nFees := nValueIn - nValueOut
  -- don't accept it if it can't get into a block
  stopIf (fLimitFree ∧ nFees < (getMinFee env.fees tx tx.getSerializeSize true .relay).toInt)
    (stateDoS 0 REJECT_INSUFFICIENTFEE "insufficient fee")
  -- continuously rate-limit free transactions
  stopIf (fLimitFree ∧ nFees < env.fees.nMinRelayTxFee.toInt ∧ env.fFreeLimited)
    (stateDoS 0 REJECT_INSUFFICIENTFEE "insufficient priority")
  stopIf (fRejectInsaneFee ∧ nFees > (env.fees.nMinRelayTxFee * 10000).toInt) (.error .unreported)

/-- The checks of what is spent, whose transactions are known. -/
def checkSpends (env : AcceptEnv) (view : FlatView) (tx : CTransaction)
    (fLimitFree fRejectInsaneFee : Bool) : Check := do
  stopIf (!view.haveInputs tx) (stateInvalid REJECT_DUPLICATE "bad-txns-inputs-spent")
  let standard ← (if env.connect.params.networkID = .main then areInputsStandard env view tx
    else .ok true)
  stopIf (!standard) (.error .unreported)
  checkFees env view tx fLimitFree fRejectInsaneFee
  -- this is done last to help prevent CPU exhaustion denial-of-service attacks
  let _ ← checkInputs env.connect view tx true
    (SCRIPT_VERIFY_P2SH ||| SCRIPT_VERIFY_STRICTENC ||| SCRIPT_VERIFY_DERSIG) false

/-- `AcceptToMemoryPool` : the pool with the transaction. -/
def acceptToMemoryPool (env : AcceptEnv) (tip : FlatView) (pool : CTxMemPool) (tx : CTransaction)
    (fLimitFree fRejectInsaneFee : Bool) : Except NotAccepted CTxMemPool := do
  (checkLoose H env pool tx).mapError .stop
  let view := pool.over tip
  -- do we already have it ?
  if (view.coins (tx.getHash H)).isSome then .error (.stop .unreported)
  -- do all inputs exist ?
  else if tx.vin.any fun txin => (view.coins txin.prevout.hash).isNone then .error .missingInputs
  else do
    (checkSpends env view tx fLimitFree fRejectInsaneFee).mapError .stop
    return pool.addUnchecked (tx.getHash H) ⟨tx⟩

/-! ## What is accepted -/

variable {H} {env : AcceptEnv} {tip tip' : FlatView} {pool pool' : CTxMemPool} {tx : CTransaction}
  {fLimitFree fRejectInsaneFee : Bool}

theorem mapError_stop_eq_ok {x : Check} : x.mapError NotAccepted.stop = .ok () ↔ x = .ok () := by
  cases x with
  | error stop => exact iff_of_false (by simp [Except.mapError]) (by simp)
  | ok u => exact iff_of_true rfl rfl

/-- A transaction that is accepted. -/
structure Accepted (H : Bytes → UInt256) (env : AcceptEnv) (tip : FlatView) (pool : CTxMemPool)
    (tx : CTransaction) (fLimitFree fRejectInsaneFee : Bool) : Prop where
  loose : checkLoose H env pool tx = .ok ()
  unknown : (pool.over tip).coins (tx.getHash H) = none
  known : ∀ txin ∈ tx.vin, (pool.over tip).coins txin.prevout.hash ≠ none
  spends : checkSpends env (pool.over tip) tx fLimitFree fRejectInsaneFee = .ok ()

theorem acceptToMemoryPool_eq_ok :
    acceptToMemoryPool H env tip pool tx fLimitFree fRejectInsaneFee = .ok pool' ↔
      Accepted H env tip pool tx fLimitFree fRejectInsaneFee ∧
        pool' = pool.addUnchecked (tx.getHash H) ⟨tx⟩ := by
  unfold acceptToMemoryPool
  constructor
  · intro h
    obtain ⟨⟨⟩, hloose, h⟩ := Outcome.bind_eq_ok.mp h
    dsimp only at h
    split at h
    · cases h
    rename_i hunknown
    split at h
    · cases h
    rename_i hknown
    obtain ⟨⟨⟩, hspends, h⟩ := Outcome.bind_eq_ok.mp h
    cases h
    refine ⟨⟨mapError_stop_eq_ok.mp hloose, by simpa using hunknown, fun txin hmem hnone => ?_,
      mapError_stop_eq_ok.mp hspends⟩, rfl⟩
    exact hknown (List.any_eq_true.mpr ⟨txin, hmem, by rw [hnone]; rfl⟩)
  · rintro ⟨⟨hloose, hunknown, hknown, hspends⟩, rfl⟩
    refine Outcome.bind_eq_ok.mpr ⟨(), mapError_stop_eq_ok.mpr hloose, ?_⟩
    dsimp only
    rw [hunknown, if_neg (by decide), if_neg]
    · exact Outcome.bind_eq_ok.mpr ⟨(), mapError_stop_eq_ok.mpr hspends, rfl⟩
    · intro hany
      obtain ⟨txin, hmem, hnone⟩ := List.any_eq_true.mp hany
      exact hknown txin hmem (Option.isNone_iff_eq_none.mp hnone)

theorem checkLoose_eq_ok (h : checkLoose H env pool tx = .ok ()) : checkTransaction tx = .ok () ∧
    tx.isCoinBase = false ∧ pool.mapTx[tx.getHash H]? = none ∧
      ∀ txin ∈ tx.vin, pool.mapNextTx[txin.prevout]? = none := by
  unfold checkLoose at h
  obtain ⟨⟨⟩, hcheck, h⟩ := Outcome.bind_eq_ok.mp h
  obtain ⟨hcb, h⟩ := bind_stopIf_eq_ok.mp h
  obtain ⟨⟨⟩, -, h⟩ := Outcome.bind_eq_ok.mp h
  obtain ⟨hnew, hfree⟩ := bind_stopIf_eq_ok.mp h
  refine ⟨hcheck, by simpa using hcb, ?_, fun txin hmem => ?_⟩
  · rw [Std.ExtTreeMap.contains_eq_isSome_getElem?] at hnew
    exact Option.not_isSome_iff_eq_none.mp hnew
  · by_contra hsome
    refine stopIf_eq_ok.mp hfree (List.any_eq_true.mpr ⟨txin, hmem, ?_⟩)
    rw [Std.ExtTreeMap.contains_eq_isSome_getElem?]
    exact Option.isSome_iff_ne_none.mpr hsome

theorem checkSpends_eq_ok {view : FlatView}
    (h : checkSpends env view tx fLimitFree fRejectInsaneFee = .ok ()) :
    view.haveInputs tx = true ∧ ∃ checks, checkInputs env.connect view tx true
      (SCRIPT_VERIFY_P2SH ||| SCRIPT_VERIFY_STRICTENC ||| SCRIPT_VERIFY_DERSIG) false =
        .ok checks := by
  unfold checkSpends at h
  obtain ⟨hinputs, h⟩ := bind_stopIf_eq_ok.mp h
  obtain ⟨standard, -, h⟩ := Outcome.bind_eq_ok.mp h
  obtain ⟨-, h⟩ := bind_stopIf_eq_ok.mp h
  obtain ⟨⟨⟩, -, h⟩ := Outcome.bind_eq_ok.mp h
  obtain ⟨checks, hchecks, -⟩ := Outcome.bind_eq_ok.mp h
  exact ⟨by simpa using hinputs, checks, hchecks⟩

/-- What the loose checks of an accepted transaction do on another pool. -/
theorem checkLoose_of_eq_ok (h : checkLoose H env pool tx = .ok ()) : checkLoose H env pool' tx = (do
    stopIf (pool'.mapTx.contains (tx.getHash H)) (.error .unreported)
    stopIf (tx.vin.any fun txin => pool'.mapNextTx.contains txin.prevout) (.error .unreported)) := by
  unfold checkLoose at h ⊢
  obtain ⟨⟨⟩, hcheck, h⟩ := Outcome.bind_eq_ok.mp h
  obtain ⟨hcb, h⟩ := bind_stopIf_eq_ok.mp h
  obtain ⟨⟨⟩, hstandard, -⟩ := Outcome.bind_eq_ok.mp h
  rw [hcheck, hstandard]
  unfold stopIf
  rw [if_neg hcb]
  rfl

theorem checkLoose_congr (h : checkLoose H env pool tx = .ok ())
    (hnew : pool'.mapTx[tx.getHash H]? = none)
    (hfree : ∀ txin ∈ tx.vin, pool'.mapNextTx[txin.prevout]? = none) :
    checkLoose H env pool' tx = .ok () := by
  rw [checkLoose_of_eq_ok h]
  unfold stopIf
  rw [if_neg, if_neg]
  · rfl
  · intro hany
    obtain ⟨txin, hmem, hspent⟩ := List.any_eq_true.mp hany
    rw [Std.ExtTreeMap.contains_eq_isSome_getElem?, hfree txin hmem] at hspent
    cases hspent
  · rw [Std.ExtTreeMap.contains_eq_isSome_getElem?, hnew]
    exact Bool.false_ne_true

theorem allM_congr_of_mem {α : Type} {f g : α → Except Stop Bool} : ∀ {l : List α},
    (∀ a ∈ l, f a = g a) → l.allM f = l.allM g
  | [], _ => rfl
  | a :: l, h => by
    rw [List.allM, List.allM, h a List.mem_cons_self,
      allM_congr_of_mem fun b hb => h b (List.mem_cons_of_mem a hb)]

/-- The checks of what is spent read the coins of the transactions that are spent only. -/
theorem FlatView.AgreeFor.checkSpends_eq {view view' : FlatView} (h : AgreeFor tx view view')
    (hbest : view.best = view'.best) : checkSpends env view tx fLimitFree fRejectInsaneFee =
      checkSpends env view' tx fLimitFree fRejectInsaneFee := by
  have hstandard : areInputsStandard env view tx = areInputsStandard env view' tx := by
    unfold areInputsStandard
    rw [allM_congr_of_mem fun input hmem => ?_]
    unfold isInputStandard
    rw [h.getOutputFor_eq (List.fst_mem_of_mem_zipIdx hmem)]
  unfold checkSpends checkFees
  rw [h.haveInputs_eq, hstandard, h.getValueIn_eq, h.checkInputs_eq hbest]

/-- A transaction is accepted as well on a pool with the same coins of the transactions that it
spends, and without conflicts. -/
theorem Accepted.congr (h : Accepted H env tip pool tx fLimitFree fRejectInsaneFee)
    (hnew : pool'.mapTx[tx.getHash H]? = none)
    (hfree : ∀ txin ∈ tx.vin, pool'.mapNextTx[txin.prevout]? = none)
    (hagree : FlatView.AgreeFor tx (pool.over tip) (pool'.over tip)) :
    Accepted H env tip pool' tx fLimitFree fRejectInsaneFee where
  loose := checkLoose_congr h.loose hnew hfree
  unknown := by
    have hunknown := (Option.or_eq_none_iff.mp h.unknown).1
    exact Option.or_eq_none_iff.mpr ⟨hunknown, Option.map_eq_none_iff.mpr hnew⟩
  known txin hmem := hagree txin hmem ▸ h.known txin hmem
  spends := hagree.checkSpends_eq rfl ▸ h.spends

/-! ## What is not accepted -/

/-- Validation returns, and neither throws nor fails an assertion. -/
def Stop.Returns (stop : Stop) : Prop := stop.Rejects ∨ stop = .unreported

theorem ends_nonstandardTx (c : Prop) [Decidable c] (reason : String) :
    Ends (fun _ => True) Stop.Rejects (stopIf c (nonstandardTx reason)) :=
  (ends_stopIf c 0 REJECT_NONSTANDARD reason).mono (fun _ _ => trivial) fun _ h => h

theorem ends_unreported (c : Prop) [Decidable c] :
    Ends (fun _ => True) Stop.Returns (stopIf c (.error .unreported)) := by
  unfold stopIf
  split
  · exact .inr rfl
  · trivial

theorem returns_of_rejects {α : Type} {P : α → Prop} {x : Except Stop α} (h : Ends P Stop.Rejects x) :
    Ends P Stop.Returns x := h.mono (fun _ h => h) fun _ h => .inl h

theorem ends_checkValueOut (n : ℤ) (txout : CTxOut) :
    Ends (fun _ => True) Stop.Rejects (checkValueOut n txout) :=
  (ends_stopIf ..).bind fun _ _ => (ends_stopIf ..).bind fun _ _ => (ends_stopIf ..).bind
    fun _ _ => trivial

theorem ends_checkTransaction (tx : CTransaction) :
    Ends (fun _ => True) Stop.Rejects (checkTransaction tx) := by
  have hloop : Ends (fun _ => True) Stop.Rejects (tx.vout.foldlM checkValueOut 0) :=
    Ends.foldlM (P := fun _ _ => True) (fun txout _ n _ => ends_checkValueOut n txout) trivial
  have hprevouts : Ends (fun _ => True) Stop.Rejects (checkPrevouts tx) := by
    unfold checkPrevouts
    split
    · exact (ends_stopIf ..).mono (fun _ _ => trivial) fun _ h => h
    · exact (ends_stopIf ..).mono (fun _ _ => trivial) fun _ h => h
  exact (ends_stopIf ..).bind fun _ _ => (ends_stopIf ..).bind fun _ _ => (ends_stopIf ..).bind
    fun _ _ => hloop.bind fun _ _ => (ends_stopIf ..).bind fun _ _ => hprevouts

/-- No data are read that are not there. -/
theorem isStandard_isSome (scriptPubKey : Bytes) : (isStandard scriptPubKey).isSome = true := by
  unfold isStandard
  obtain ⟨⟨solved, whichType, vSolutions⟩, hsolver⟩ :=
    Option.isSome_iff_exists.mp (solver_isSome scriptPubKey)
  rw [hsolver]
  cases solved with
  | false => rfl
  | true =>
    by_cases htype : whichType = .multisig
    · subst htype
      obtain ⟨m, n, keys, -, -, rfl⟩ := multisig_of_solver hsolver
      have hlast : ([m] :: (keys.map ScriptOp.vch ++ [[n]])).getLast? = some [n] := by
        rw [← List.cons_append, List.getLast?_concat]
      simp [hlast]
    · simp [htype]

theorem ends_checkStandardOut (fees : TxFees) (nDataOut : ℕ) (txout : CTxOut) :
    Ends (fun _ => True) Stop.Rejects (checkStandardOut fees nDataOut txout) := by
  unfold checkStandardOut
  obtain ⟨⟨standard, whichType⟩, hstandard⟩ :=
    Option.isSome_iff_exists.mp (isStandard_isSome txout.scriptPubKey)
  rw [hstandard]
  dsimp only
  refine (ends_nonstandardTx _ _).bind fun _ _ => ?_
  split
  · trivial
  · exact (ends_nonstandardTx _ _).bind fun _ _ => trivial

theorem ends_isStandardTx (env : AcceptEnv) (tx : CTransaction) :
    Ends (fun _ => True) Stop.Rejects (isStandardTx env tx) := by
  have hin : ∀ txin ∈ tx.vin, Ends (fun _ => True) Stop.Rejects (checkStandardIn txin) :=
    fun _ _ => (ends_nonstandardTx _ _).bind fun _ _ => (ends_nonstandardTx _ _).bind
      fun _ _ => ends_nonstandardTx _ _
  have hout : Ends (fun _ => True) Stop.Rejects (tx.vout.foldlM (checkStandardOut env.fees) 0) :=
    Ends.foldlM (P := fun _ _ => True) (fun txout _ n _ => ends_checkStandardOut _ n txout) trivial
  exact (ends_nonstandardTx _ _).bind fun _ _ => (ends_nonstandardTx _ _).bind fun _ _ =>
    (ends_nonstandardTx _ _).bind fun _ _ => (Ends.forM hin).bind fun _ _ => hout.bind
      fun _ _ => ends_nonstandardTx _ _

/-- A script ends with true or false from an empty stack. -/
theorem evalScript_returns (checkSig : EvalScript.SigCheck → Bool) (flags : UInt32)
    (hashes : ScriptHashes) (script : Bytes) :
    (evalScript (EvalScript.checkSignature checkSig flags) hashes [] script).1 ≠
      .error .assertFailed := by
  have herror : ∀ e, (evalLoop (EvalScript.checkSignature checkSig flags) hashes [] script).1 =
      .error e → e ≠ .assertFailed := by
    rintro e he rfl
    rcases Tape.run_cases opReader .returnFalse
      (EvalScript.evalOp (EvalScript.checkSignature checkSig flags) hashes) script (.init [] script) with
      ⟨st, hok, -⟩ | hstop | ⟨op, pc₁, pc₂, st, e, hst, -, hexec, hrun⟩
    · rw [evalLoop, hok] at he
      cases he
    · rw [evalLoop, hstop] at he
      cases he
    · rw [evalLoop, hrun] at he
      cases he
      have hlimits := limits_of_reached (Nat.zero_le _)
        (fun vch hmem => absurd hmem List.not_mem_nil) hst
      have hyields := evalOp_yields (checkSignature_yields checkSig flags) hashes op pc₂ hlimits
      rw [hexec] at hyields
      rcases hyields with h | h
      · cases h
      · cases h
  rw [evalScript_fst]
  split
  · simp
  cases hrun : (evalLoop (EvalScript.checkSignature checkSig flags) hashes [] script).1 with
  | error e =>
    have hne := herror e hrun
    cases e with
    | assertFailed => exact absurd rfl hne
    | returnFalse => simp [endOfScript, catchAll, Except.bind]
    | scriptNumError => simp [endOfScript, catchAll, Except.bind]
    | outOfRange => simp [endOfScript, catchAll, Except.bind]
  | ok st =>
    simp only [endOfScript, catchAll, Except.bind]
    split
    · simp
    · simp

theorem ends_allM {α : Type} {E : Stop → Prop} {f : α → Except Stop Bool} : ∀ {l : List α},
    (∀ a ∈ l, Ends (fun _ => True) E (f a)) → Ends (fun _ => True) E (l.allM f)
  | [], _ => trivial
  | a :: l, h => by
    rw [List.forall_mem_cons] at h
    refine h.1.bind fun b _ => ?_
    cases b with
    | true => exact ends_allM h.2
    | false => trivial

theorem ends_areInputsStandard (env : AcceptEnv) {view : FlatView} (hcb : tx.isCoinBase = false)
    (hinputs : ∀ txin ∈ tx.vin, ∃ txout, view.output txin.prevout = some txout) :
    Ends (fun _ => True) Stop.Returns (areInputsStandard env view tx) := by
  unfold areInputsStandard
  rw [hcb, if_neg (by decide)]
  refine ends_allM fun input hmem => ?_
  obtain ⟨txout, hout⟩ := hinputs _ (List.fst_mem_of_mem_zipIdx hmem)
  have hget : view.getOutputFor input.1 = .ok txout := by
    unfold FlatView.getOutputFor
    rw [hout]
  unfold isInputStandard
  rw [hget]
  refine Ends.bind (P := fun prev => prev = txout) rfl fun prev _ => ?_
  obtain ⟨⟨solved, whichType, vSolutions⟩, hsolver⟩ :=
    Option.isSome_iff_exists.mp (solver_isSome prev.scriptPubKey)
  rw [hsolver]
  dsimp only
  split
  · trivial
  split
  · rename_i heq
    exact absurd heq (evalScript_returns _ _ _ _)
  · trivial
  split
  · trivial
  split
  · trivial
  rename_i subscript _ _
  obtain ⟨⟨solved2, whichType2, vSolutions2⟩, hsolver2⟩ :=
    Option.isSome_iff_exists.mp (solver_isSome subscript)
  rw [hsolver2]
  trivial

theorem ends_checkFees (env : AcceptEnv) {view : FlatView} (hcb : tx.isCoinBase = false)
    (hinputs : ∀ txin ∈ tx.vin, ∃ txout, view.output txin.prevout = some txout) {nValueOut : ℤ}
    (hout : tx.valueOut = .ok nValueOut) (fLimitFree fRejectInsaneFee : Bool) :
    Ends (fun _ => True) Stop.Returns (checkFees env view tx fLimitFree fRejectInsaneFee) := by
  unfold checkFees
  rw [FlatView.getValueIn_eq_ok hcb hinputs, hout]
  exact (returns_of_rejects (ends_stopIf ..)).bind fun _ _ => (returns_of_rejects (ends_stopIf ..)).bind fun _ _ =>
    ends_unreported _

theorem ends_checkSpends {view : FlatView} {p : CBlockIndex} (hcb : tx.isCoinBase = false)
    (hindex : env.connect.mapBlockIndex[view.best]? = some p) {nValueOut : ℤ}
    (hout : tx.valueOut = .ok nValueOut) (fLimitFree fRejectInsaneFee : Bool) :
    Ends (fun _ => True) Stop.Returns
      (checkSpends env view tx fLimitFree fRejectInsaneFee) := by
  unfold checkSpends
  refine (returns_of_rejects (ends_stopIf ..)).bind fun _ hinputs => ?_
  replace hinputs : view.haveInputs tx = true := by simpa using hinputs
  have havailable := (FlatView.haveInputs_iff hcb).mp hinputs
  have hstandard : Ends (fun _ => True) Stop.Returns
      (if env.connect.params.networkID = .main then areInputsStandard env view tx
        else .ok true) := by
    split
    · exact ends_areInputsStandard env hcb havailable
    · trivial
  refine hstandard.bind fun standard _ => (ends_unreported _).bind fun _ _ =>
    (ends_checkFees env hcb havailable hout _ _).bind fun _ _ => ?_
  exact (returns_of_rejects (ends_checkInputs env.connect hcb hinputs hindex hout true _ false)).bind
    fun _ _ => trivial

/-- A transaction is accepted, or it is not and the call returns : no exception is thrown, and no
assertion fails, if the tip is in the index of blocks. -/
theorem acceptToMemoryPool_returns {p : CBlockIndex}
    (hindex : env.connect.mapBlockIndex[tip.best]? = some p) {e : NotAccepted}
    (h : acceptToMemoryPool H env tip pool tx fLimitFree fRejectInsaneFee = .error e) :
    e = .missingInputs ∨ ∃ stop : Stop, stop.Returns ∧ e = .stop stop := by
  have hends : Ends (fun _ => True) (fun e => e = .missingInputs ∨
      ∃ stop : Stop, stop.Returns ∧ e = NotAccepted.stop stop)
      (acceptToMemoryPool H env tip pool tx fLimitFree fRejectInsaneFee) := by
    have hstop : ∀ {x : Check}, Ends (fun _ => True) Stop.Returns x →
        Ends (fun _ => x = .ok ()) (fun e => e = .missingInputs ∨
          ∃ stop : Stop, stop.Returns ∧ e = NotAccepted.stop stop) (x.mapError NotAccepted.stop) := by
      intro x hx
      cases x with
      | ok u => rfl
      | error stop => exact .inr ⟨stop, hx, rfl⟩
    have hloose : Ends (fun _ => True) Stop.Returns (checkLoose H env pool tx) := by
      refine (returns_of_rejects (ends_checkTransaction tx)).bind fun _ _ => (returns_of_rejects (ends_stopIf ..)).bind
        fun _ _ => Ends.bind (P := fun _ => True) ?_ fun _ _ => (ends_unreported _).bind
          fun _ _ => ends_unreported _
      split
      · exact returns_of_rejects (ends_isStandardTx env tx)
      · trivial
    refine (hstop hloose).bind fun _ hok => ?_
    obtain ⟨hcheck, hcb, -⟩ := checkLoose_eq_ok hok
    dsimp only
    split
    · exact .inr ⟨_, .inr rfl, rfl⟩
    split
    · exact .inl rfl
    have hout := valueOut_of_checked (checkTransaction_eq_ok hcheck)
    have hbest : env.connect.mapBlockIndex[(pool.over tip).best]? = some p := hindex
    have hspends : Ends (fun _ => True) Stop.Returns
        (checkSpends env (pool.over tip) tx fLimitFree fRejectInsaneFee) :=
      ends_checkSpends hcb hbest hout _ _
    exact (hstop hspends).bind fun _ _ => trivial
  exact hends.of_error h

end Ticoin
