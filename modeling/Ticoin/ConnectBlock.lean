import Ticoin.CoinsView
import Ticoin.Lib.Outcome
import Ticoin.SigEncoding
import Ticoin.Validation

/-!
# main.cpp : connecting a block to a view of coins

The coins of a view are spent by the inputs of a transaction and made by its outputs
(`updateCoins`). `CheckInputs` decides whether a transaction may do so, and `ConnectBlock` does it
for the transactions of a block one after the other, counting signature operations and fees.

A cache over a view answers as a view of its own (`stackStep_sim`), so that the functions here read
and change flat views. `VerifyScript` is a parameter.
-/

namespace Ticoin

open Codec Outcome

/-! ## Coins of a view -/

/-- An output, if it is available. -/
def CCoins.output (coins : CCoins) (n : ℕ) : Option CTxOut :=
  if coins.isAvailable n then coins.vout[n]? else none

/-- The signature operations of a script that is spent by its hash. -/
def CTxOut.p2shSigOps (prevout : CTxOut) (scriptSig : Bytes) : ℕ :=
  if isPayToScriptHash prevout.scriptPubKey then getSigOpCountFor prevout.scriptPubKey scriptSig
  else 0

namespace FlatView

variable (view : FlatView)

/-- The output at an outpoint, if it is available. -/
def output (prevout : COutPoint) : Option CTxOut :=
  (view.coins prevout.hash).bind fun coins => coins.output prevout.n.toNat

/-- `HaveInputs`. -/
def haveInputs (tx : CTransaction) : Bool :=
  tx.isCoinBase ||
    (tx.vin.all fun txin => (view.coins txin.prevout.hash).isSome) &&
      tx.vin.all fun txin => (view.coins txin.prevout.hash).any fun coins =>
        coins.isAvailable txin.prevout.n.toNat

/-- `GetOutputFor`, which asserts that the output is available. -/
def getOutputFor (txin : CTxIn) : Except Stop CTxOut :=
  match view.output txin.prevout with
  | none => .error .undefined
  | some txout => .ok txout

/-- `GetValueIn`. -/
def getValueIn (tx : CTransaction) : Except Stop ℤ :=
  if tx.isCoinBase then .ok 0
  else tx.vin.foldlM (fun nResult txin => do
    let txout ← view.getOutputFor txin
    return nResult + txout.nValue.toInt) 0

/-- `GetP2SHSigOpCount`. -/
def getP2SHSigOpCount (tx : CTransaction) : Except Stop ℕ :=
  if tx.isCoinBase then .ok 0
  else tx.vin.foldlM (fun nSigOps txin => do
    let prevout ← view.getOutputFor txin
    if isPayToScriptHash prevout.scriptPubKey then
      return nSigOps + getSigOpCountFor prevout.scriptPubKey txin.scriptSig
    else return nSigOps) 0

/-- An output is marked spent. -/
def spendCoins (prevout : COutPoint) : Except Stop (FlatView × CTxInUndo) :=
  match (view.coins prevout.hash).bind fun coins => coins.spend prevout.n.toNat with
  | none => .error .undefined
  | some (coins, undo) => .ok (view.setCoins prevout.hash coins, undo)

/-- The inputs of a transaction are marked spent. -/
def spendInputs : List CTxIn → FlatView → Except Stop (FlatView × List CTxInUndo)
  | [], view => .ok (view, [])
  | txin :: vin, view => do
    let (view, undo) ← view.spendCoins txin.prevout
    let (view, vprevout) ← spendInputs vin view
    return (view, undo :: vprevout)

/-- `UpdateCoins`. -/
def updateCoins (tx : CTransaction) (nHeight : ℤ) (txhash : UInt256) :
    Except Stop (FlatView × List CTxInUndo) := do
  let (view, vprevout) ← if tx.isCoinBase then .ok (view, []) else spendInputs tx.vin view
  return (view.setCoins txhash (.ofTx tx nHeight), vprevout)

end FlatView

/-! ## CheckInputs -/

/-- `CScriptCheck` : an input, the script of the output that it spends, and flags. -/
structure CScriptCheck where
  scriptPubKey : Bytes
  tx : CTransaction
  nIn : ℕ
  nFlags : UInt32

/-- What connecting reads outside of the block and the view. -/
structure ConnectEnv where
  params : ChainParams
  checkpoints : List (ℕ × UInt256)
  nAdjustedTime : ℤ
  mapBlockIndex : Std.ExtTreeMap UInt256 CBlockIndex
  /-- whether `VerifyScript` returns true -/
  verifyScript : CScriptCheck → Bool
  nScriptCheckThreads : ℕ
  /-- whether undo data and indexes are written to disk -/
  written : Bool

/-- `GetValueOut`, which throws. -/
def CTransaction.valueOut (tx : CTransaction) : Except Stop ℤ := tx.getValueOut.mapError Stop.throw

/-- One input in the first loop of `CheckInputs`. -/
def checkInput (view : FlatView) (nSpendHeight nValueIn : ℤ) (txin : CTxIn) : Except Stop ℤ :=
  match view.coins txin.prevout.hash with
  | none => .error .undefined
  | some coins => do
    -- if prev is coinbase, check that it's matured
    stopIf (coins.fCoinBase ∧ nSpendHeight - coins.nHeight < COINBASE_MATURITY)
      (stateInvalid REJECT_INVALID "bad-txns-premature-spend-of-coinbase")
    match coins.vout[txin.prevout.n.toNat]? with
    | none => .error .undefined
    | some txout => do
      stopIf (¬MoneyRange txout.nValue.toInt ∨ ¬MoneyRange (nValueIn + txout.nValue.toInt))
        (stateDoS 100 REJECT_INVALID "bad-txns-inputvalues-outofrange")
      return nValueIn + txout.nValue.toInt

/-- The check of the script of an input. -/
def scriptCheck (view : FlatView) (tx : CTransaction) (flags : UInt32) (input : CTxIn × ℕ) :
    Except Stop CScriptCheck :=
  match (view.coins input.1.prevout.hash).bind fun coins =>
      coins.vout[input.1.prevout.n.toNat]? with
  | none => .error .undefined
  | some txout => .ok ⟨txout.scriptPubKey, tx, input.2, flags⟩

/-- A check that is not left to another thread. -/
def runScriptCheck (env : ConnectEnv) (check : CScriptCheck) : Check := do
  if env.verifyScript check then return ()
  -- whether the failure was caused by non-canonical encodings
  if hasFlag check.nFlags SCRIPT_VERIFY_STRICTENC ∧
      env.verifyScript { check with nFlags := check.nFlags &&& ~~~SCRIPT_VERIFY_STRICTENC } then
    stateInvalid REJECT_NONSTANDARD "non-canonical"
  else stateDoS 100 REJECT_NONSTANDARD "non-canonical"

/-- The loops of `CheckInputs` over the inputs but for the scripts. -/
def checkAmounts (view : FlatView) (nSpendHeight : ℤ) (tx : CTransaction) : Check := do
  let nValueIn ← tx.vin.foldlM (checkInput view nSpendHeight) 0
  let nValueOut ← tx.valueOut
  stopIf (nValueIn < nValueOut) (stateDoS 100 REJECT_INVALID "bad-txns-in-belowout")
  stopIf (nValueIn - nValueOut < 0) (stateDoS 100 REJECT_INVALID "bad-txns-fee-negative")
  stopIf (¬MoneyRange (nValueIn - nValueOut))
    (stateDoS 100 REJECT_INVALID "bad-txns-fee-outofrange")

/-- The loop of `CheckInputs` over the scripts, which returns the checks that it leaves to be made
if there is a vector for them. -/
def checkScripts (env : ConnectEnv) (view : FlatView) (tx : CTransaction) (fScriptChecks : Bool)
    (flags : UInt32) (pvChecks : Bool) : Except Stop (List CScriptCheck) :=
  if !fScriptChecks then .ok []
  else do
    let checks ← tx.vin.zipIdx.mapM (scriptCheck view tx flags)
    if pvChecks then return checks
    checks.forM (runScriptCheck env)
    return []

/-- `CheckInputs`. -/
def checkInputs (env : ConnectEnv) (view : FlatView) (tx : CTransaction) (fScriptChecks : Bool)
    (flags : UInt32) (pvChecks : Bool) : Except Stop (List CScriptCheck) :=
  if tx.isCoinBase then .ok []
  else do
    stopIf (!view.haveInputs tx) (stateInvalid 0 "")
    match env.mapBlockIndex[view.best]? with
    | none => .error .undefined
    | some pindexPrev => do
      checkAmounts view (pindexPrev.nHeight + 1) tx
      checkScripts env view tx fScriptChecks flags pvChecks

/-! ## ConnectBlock -/

/-- `GetBlockValue`. -/
def getBlockValue (params : ChainParams) (nHeight : ℕ) (nFees : ℤ) : ℤ :=
  let halvings := nHeight / params.nSubsidyHalvingInterval
  -- force block reward to zero when right shift is undefined
  if halvings ≥ 64 then nFees else (30 * COIN) / 2 ^ halvings + nFees

/-- The loop of `ConnectBlock`. -/
structure Connecting where
  view : FlatView
  nFees : ℤ
  nSigOps : ℕ
  /-- the checks left to other threads -/
  control : List CScriptCheck
  vtxundo : List (List CTxInUndo)

/-- What an entry that is connected says of its block. -/
structure ConnectFlags where
  nHeight : ℕ
  fScriptChecks : Bool
  fStrictPayToScriptHash : Bool
  flags : UInt32

variable (H : Bytes → UInt256) (env : ConnectEnv)

/-- Signature operations of a transaction are added and limited. -/
def addSigOps (nSigOps n : ℕ) : Except Stop ℕ := do
  stopIf (nSigOps + n > MAX_BLOCK_SIGOPS) (stateDoS 100 REJECT_INVALID "bad-blk-sigops")
  return nSigOps + n

/-- The inputs of a transaction that is no coinbase : signature operations, fees and checks. -/
def connectInputs (cf : ConnectFlags) (s : Connecting) (tx : CTransaction) :
    Except Stop Connecting := do
  stopIf (!s.view.haveInputs tx) (stateDoS 100 REJECT_INVALID "bad-txns-inputs-missingorspent")
  let nSigOps ← (if cf.fStrictPayToScriptHash then do
      -- add in sigops done by pay-to-script-hash inputs
      let n ← s.view.getP2SHSigOpCount tx
      addSigOps s.nSigOps n
    else .ok s.nSigOps)
  let nValueIn ← s.view.getValueIn tx
  let nValueOut ← tx.valueOut
  let vChecks ← checkInputs env s.view tx cf.fScriptChecks cf.flags (env.nScriptCheckThreads ≠ 0)
  return { s with
    nSigOps := nSigOps
    nFees := s.nFees + (nValueIn - nValueOut)
    control := s.control ++ vChecks }

/-- One transaction of a block. -/
def connectTx (cf : ConnectFlags) (s : Connecting) (tx : CTransaction) :
    Except Stop Connecting := do
  let nSigOps ← addSigOps s.nSigOps (getLegacySigOpCount tx)
  let s := { s with nSigOps := nSigOps }
  let s ← if tx.isCoinBase then .ok s else connectInputs env cf s tx
  let (view, txundo) ← s.view.updateCoins tx cf.nHeight (tx.getHash H)
  return { s with
    view := view
    vtxundo := if tx.isCoinBase then s.vtxundo else s.vtxundo ++ [txundo] }

/-- The blocks that have a coinbase that overwrites an older one. -/
def isBIP30Exempt (nHeight : ℕ) (hash : UInt256) : Bool :=
  nHeight == 91842 &&
      hash == 0x00000000000a4d0a398161ffc163c503763b1f4360639393e0e4c8e300e0caec ||
    nHeight == 91880 &&
      hash == 0x00000000000743f190a18c5577a3c2d2a1f610ae9601ac046a38084ccb7cd721

/-- What the entry of a block says of it. -/
def connectFlags (block : CBlock) (pindex : CBlockIndex) : ConnectFlags where
  nHeight := pindex.nHeight
  fScriptChecks := pindex.nHeight ≥ Checkpoints.getTotalBlocksEstimate env.checkpoints
  -- BIP16 didn't become active until Apr 1 2012
  fStrictPayToScriptHash := pindex.entry.nTime.toNat ≥ 1333238400
  flags :=
    let flags := SCRIPT_VERIFY_NOCACHE |||
      if pindex.entry.nTime.toNat ≥ 1333238400 then SCRIPT_VERIFY_P2SH else SCRIPT_VERIFY_NONE
    if block.nVersion ≥ 3 ∧ pindex.pprev.any fun pprev => superMajority env.params 3 pprev 750 51
      then flags ||| SCRIPT_VERIFY_DERSIG else flags

/-- The transactions of a block do not overwrite others. -/
def checkOverwrites (block : CBlock) (pindex : CBlockIndex) (view : FlatView) : Check :=
  stopIf (¬pindex.entry.phashBlock.any (isBIP30Exempt pindex.nHeight) ∧
    ∃ tx ∈ block.vtx, (view.coins (tx.getHash H)).any fun coins => !coins.isPruned)
    (stateDoS 100 REJECT_INVALID "bad-txns-BIP30")

/-- The end of `ConnectBlock` : the coinbase, and the checks left to other threads. -/
def connectEnd (block : CBlock) (pindex : CBlockIndex) (s : Connecting) : Check := do
  match block.vtx.head? with
  | none => .error .undefined
  | some txNew => do
    let nValueOut ← txNew.valueOut
    stopIf (nValueOut > getBlockValue env.params pindex.nHeight s.nFees)
      (stateDoS 100 REJECT_INVALID "bad-cb-amount")
  stopIf (¬s.control.all env.verifyScript) (stateDoS 100 0 "")

/-- `ConnectBlock`. -/
def connectBlock (block : CBlock) (pindex : CBlockIndex) (view : FlatView) (fJustCheck : Bool) :
    Except Stop (FlatView × List (List CTxInUndo)) := do
  checkBlock H env.params env.nAdjustedTime block (!fJustCheck) (!fJustCheck)
  -- verify that the view's current state corresponds to the previous block
  stopIf ((pindex.pprev.map fun pprev => pprev.entry.phashBlock).getD (some 0) ≠ some view.best)
    (.error .undefined)
  -- special case for the genesis block
  if block.getHash H = env.params.hashGenesisBlock then
    match pindex.entry.phashBlock with
    | none => .error .undefined
    | some hash => return ({ view with best := hash }, [])
  else do
    checkOverwrites H block pindex view
    let s ← block.vtx.foldlM (connectTx H env (connectFlags env block pindex))
      ⟨view, 0, 0, [], []⟩
    connectEnd env block pindex s
    if fJustCheck then return (s.view, s.vtxundo)
    else if !env.written then .error (.error "")
    else
      match pindex.entry.phashBlock with
      | none => .error .undefined
      | some hash => return ({ s.view with best := hash }, s.vtxundo)

/-! ## Available outputs -/

namespace CCoins

variable {coins left : CCoins} {n m : ℕ} {txout : CTxOut} {undo : CTxInUndo}

theorem output_eq_some : coins.output n = some txout ↔
    coins.vout[n]? = some txout ∧ txout.isNull = false := by
  unfold output isAvailable
  cases h : coins.vout[n]? with
  | none => simp
  | some o =>
    by_cases ho : o.isNull <;> simp [ho] <;> grind

theorem isAvailable_iff : coins.isAvailable n = true ↔ ∃ txout, coins.output n = some txout := by
  unfold output isAvailable
  cases h : coins.vout[n]? with
  | none => simp
  | some o => cases ho : o.isNull <;> simp [ho]

/-- What `Cleanup` drops is not available. -/
theorem output_cleanup (coins : CCoins) (n : ℕ) : coins.cleanup.output n = coins.output n := by
  ext txout
  rw [output_eq_some, output_eq_some]
  unfold cleanup
  have happend := List.rdropWhile_append_rtakeWhile (p := CTxOut.isNull) (l := coins.vout)
  refine and_congr_left fun hnull => ?_
  conv_rhs => rw [← happend]
  by_cases hlt : n < (coins.vout.rdropWhile CTxOut.isNull).length
  · rw [List.getElem?_append_left hlt]
  · rw [List.getElem?_append_right (not_lt.mp hlt), List.getElem?_eq_none (not_lt.mp hlt)]
    refine iff_of_false nofun fun hsome => ?_
    have hmem := List.mem_rtakeWhile_imp (List.mem_of_getElem? hsome)
    rw [hnull] at hmem
    cases hmem

theorem exists_spend (h : coins.output n = some txout) : ∃ left undo,
    coins.spend n = some (left, undo) := by
  obtain ⟨hget, hnull⟩ := output_eq_some.mp h
  unfold spend
  rw [hget]
  simp [hnull]

/-- Only the output that is spent is not available any more. -/
theorem output_spend (h : coins.spend n = some (left, undo)) (m : ℕ) :
    left.output m = if m = n then none else coins.output m := by
  unfold spend at h
  split at h
  · cases h
  · rename_i txout hget
    split at h
    · cases h
    · cases h
      rw [output_cleanup]
      ext o
      rw [output_eq_some]
      dsimp only
      by_cases hm : m = n
      · subst hm
        have hlt : m < coins.vout.length := (List.getElem?_eq_some_iff.mp hget).1
        rw [List.getElem?_set_self hlt, if_pos rfl]
        refine iff_of_false (fun hnull => ?_) nofun
        rw [← Option.some.inj hnull.1, CTxOut.isNull_null] at hnull
        exact absurd hnull.2 (by decide)
      · rw [List.getElem?_set_ne (Ne.symm hm), if_neg hm, output_eq_some]

theorem output_ofTx {tx : CTransaction} {nHeight : ℤ}
    (h : (ofTx tx nHeight).output n = some txout) : tx.vout[n]? = some txout := by
  unfold ofTx clearUnspendable at h
  rw [output_cleanup, output_eq_some, List.getElem?_map] at h
  obtain ⟨hget, hnull⟩ := h
  obtain ⟨o, ho, heq⟩ := Option.map_eq_some_iff.mp hget
  split at heq
  · rw [← heq] at hnull
    exact absurd hnull (by decide)
  · rw [ho, heq]

end CCoins

namespace FlatView

variable {view view' : FlatView} {o : COutPoint} {txout : CTxOut} {undo : CTxInUndo}

theorem output_eq_some : view.output o = some txout ↔
    ∃ coins, view.coins o.hash = some coins ∧ coins.output o.n.toNat = some txout :=
  Option.bind_eq_some_iff

theorem output_setCoins (view : FlatView) (txid : UInt256) (coins : CCoins) (o : COutPoint) :
    (view.setCoins txid coins).output o =
      if o.hash = txid then coins.output o.n.toNat else view.output o := by
  unfold output setCoins
  dsimp only
  by_cases h : o.hash = txid
  · rw [h, Function.update_self, if_pos rfl]
    rfl
  · rw [Function.update_of_ne h, if_neg h]

theorem haveInputs_iff {tx : CTransaction} (hcb : tx.isCoinBase = false) :
    view.haveInputs tx = true ↔
      ∀ txin ∈ tx.vin, ∃ txout, view.output txin.prevout = some txout := by
  unfold haveInputs
  rw [hcb, Bool.false_or, Bool.and_eq_true, List.all_eq_true, List.all_eq_true, ← forall₂_and]
  refine forall₂_congr fun txin _ => ?_
  unfold output
  cases view.coins txin.prevout.hash with
  | none => simp
  | some coins => simp [CCoins.isAvailable_iff]

/-- Spending an available output makes this one unavailable. -/
theorem exists_spendCoins (h : view.output o = some txout) : ∃ view' undo,
    view.spendCoins o = .ok (view', undo) ∧
      ∀ o', view'.output o' = if o' = o then none else view.output o' := by
  obtain ⟨coins, hcoins, hout⟩ := output_eq_some.mp h
  obtain ⟨left, undo, hspend⟩ := CCoins.exists_spend hout
  refine ⟨view.setCoins o.hash left, undo, ?_, fun o' => ?_⟩
  · unfold spendCoins
    rw [hcoins, Option.bind_some, hspend]
  · rw [output_setCoins]
    by_cases hhash : o'.hash = o.hash
    · rw [if_pos hhash, CCoins.output_spend hspend]
      have hiff : o'.n.toNat = o.n.toNat ↔ o' = o := by
        rw [UInt32.toNat_inj]
        cases o
        cases o'
        simp_all
      unfold output
      rw [hhash, hcoins, Option.bind_some]
      simp only [hiff]
    · rw [if_neg hhash, if_neg fun heq => hhash (congrArg COutPoint.hash heq)]

/-- Inputs that spend different available outputs are spent, and only these. -/
theorem exists_spendInputs : ∀ {vin : List CTxIn} {view : FlatView},
    (vin.map CTxIn.prevout).Nodup → (∀ txin ∈ vin, ∃ txout, view.output txin.prevout = some txout) →
    ∃ view' vprevout, spendInputs vin view = .ok (view', vprevout) ∧
      ∀ o, view'.output o = if o ∈ vin.map CTxIn.prevout then none else view.output o
  | [], view, _, _ => ⟨view, [], rfl, by simp⟩
  | txin :: vin, view, hnodup, havailable => by
    rw [List.map_cons, List.nodup_cons] at hnodup
    rw [List.forall_mem_cons] at havailable
    obtain ⟨txout, hout⟩ := havailable.1
    obtain ⟨view₁, undo, hspend, hview₁⟩ := exists_spendCoins hout
    have havailable₁ : ∀ txin' ∈ vin, ∃ txout, view₁.output txin'.prevout = some txout := by
      intro txin' hmem
      rw [hview₁, if_neg]
      · exact havailable.2 txin' hmem
      · intro heq
        exact hnodup.1 (heq ▸ List.mem_map_of_mem hmem)
    obtain ⟨view', vprevout, hrest, hview'⟩ := exists_spendInputs hnodup.2 havailable₁
    refine ⟨view', undo :: vprevout, ?_, fun o => ?_⟩
    · unfold spendInputs
      rw [hspend]
      change (spendInputs vin view₁ >>= fun r => _) = _
      rw [hrest]
      rfl
    · rw [hview', hview₁, List.map_cons]
      by_cases hmem : o ∈ vin.map CTxIn.prevout
      · simp [hmem]
      · simp [hmem]

/-- What `UpdateCoins` does to the outputs of a view. -/
theorem exists_updateCoins {tx : CTransaction} (hcb : tx.isCoinBase = false)
    (hnodup : (tx.vin.map CTxIn.prevout).Nodup) (hinputs : view.haveInputs tx = true) (nHeight : ℤ)
    (txhash : UInt256) : ∃ view' vprevout,
      view.updateCoins tx nHeight txhash = .ok (view', vprevout) ∧
      ∀ o, view'.output o = if o.hash = txhash then (CCoins.ofTx tx nHeight).output o.n.toNat
        else if o ∈ tx.vin.map CTxIn.prevout then none else view.output o := by
  obtain ⟨view₁, vprevout, hspend, hview₁⟩ :=
    exists_spendInputs hnodup ((haveInputs_iff hcb).mp hinputs)
  refine ⟨view₁.setCoins txhash (.ofTx tx nHeight), vprevout, ?_, fun o => ?_⟩
  · unfold updateCoins
    rw [hcb]
    change (spendInputs tx.vin view >>= fun r => _) = _
    rw [hspend]
    rfl
  · rw [output_setCoins, hview₁]

theorem output_updateCoins {tx : CTransaction} {nHeight : ℤ} {txhash : UInt256}
    {vprevout : List CTxInUndo} (hcb : tx.isCoinBase = false)
    (hnodup : (tx.vin.map CTxIn.prevout).Nodup) (hinputs : view.haveInputs tx = true)
    (h : view.updateCoins tx nHeight txhash = .ok (view', vprevout)) (o : COutPoint) :
    view'.output o = if o.hash = txhash then (CCoins.ofTx tx nHeight).output o.n.toNat
      else if o ∈ tx.vin.map CTxIn.prevout then none else view.output o := by
  obtain ⟨v, _, hupdate, hview⟩ := exists_updateCoins hcb hnodup hinputs nHeight txhash
  rw [hupdate] at h
  cases h
  exact hview o

theorem best_spendInputs : ∀ {vin : List CTxIn} {view view' : FlatView} {vprevout : List CTxInUndo},
    spendInputs vin view = .ok (view', vprevout) → view'.best = view.best
  | [], _, _, _, h => by
    cases h
    rfl
  | txin :: vin, view, view', vprevout, h => by
    obtain ⟨⟨view₁, undo⟩, hspend, h⟩ := bind_eq_ok.mp h
    obtain ⟨⟨view₂, vprevout⟩, hrest, h⟩ := bind_eq_ok.mp h
    cases h
    rw [best_spendInputs hrest]
    unfold spendCoins at hspend
    split at hspend
    · cases hspend
    · cases hspend
      rfl

/-- The best block is no matter of the coins. -/
theorem best_updateCoins {tx : CTransaction} {nHeight : ℤ} {txhash : UInt256}
    {vprevout : List CTxInUndo} (h : view.updateCoins tx nHeight txhash = .ok (view', vprevout)) :
    view'.best = view.best := by
  unfold updateCoins at h
  cases hcb : tx.isCoinBase with
  | true =>
    rw [hcb] at h
    cases h
    rfl
  | false =>
    rw [hcb] at h
    obtain ⟨⟨view₁, undo⟩, hspend, h⟩ := bind_eq_ok.mp h
    cases h
    exact (best_spendInputs hspend :)

section Sums

variable {tx : CTransaction} (hcb : tx.isCoinBase = false)
  (hinputs : ∀ txin ∈ tx.vin, ∃ txout, view.output txin.prevout = some txout)
include hcb hinputs

/-- The value of inputs that are available. -/
theorem getValueIn_eq_ok : view.getValueIn tx = .ok (tx.vin.map fun txin =>
    ((view.output txin.prevout).map fun txout => txout.nValue.toInt).getD 0).sum := by
  unfold getValueIn
  rw [hcb, if_neg (by decide), Ledger.foldlM_of_add (fun txin : CTxIn =>
    ((view.output txin.prevout).map fun txout => txout.nValue.toInt).getD 0), zero_add]
  intro txin hmem n
  obtain ⟨txout, hout⟩ := hinputs txin hmem
  unfold getOutputFor
  rw [hout]
  rfl

/-- The signature operations of inputs that are available and spend to the hash of a script. -/
theorem getP2SHSigOpCount_eq_ok : view.getP2SHSigOpCount tx = .ok (tx.vin.map fun txin =>
    ((view.output txin.prevout).map fun txout => txout.p2shSigOps txin.scriptSig).getD 0).sum := by
  unfold getP2SHSigOpCount
  rw [hcb, if_neg (by decide), Ledger.foldlM_of_add (fun txin : CTxIn =>
    ((view.output txin.prevout).map fun txout => txout.p2shSigOps txin.scriptSig).getD 0), zero_add]
  intro txin hmem n
  obtain ⟨txout, hout⟩ := hinputs txin hmem
  unfold getOutputFor
  rw [hout]
  change (if isPayToScriptHash txout.scriptPubKey then _ else _) = _
  rw [Option.map_some, Option.getD_some, CTxOut.p2shSigOps]
  split
  · rfl
  · rfl

end Sums

end FlatView

/-- A transaction that was checked has a value. -/
theorem valueOut_of_checked {tx : CTransaction} (h : CheckedTransaction tx) :
    tx.valueOut = .ok (tx.vout.map fun txout => txout.nValue.toInt).sum := by
  have hloop : tx.getValueOut = .ok (0 + (tx.vout.map fun txout => txout.nValue.toInt).sum) := by
    refine Ledger.foldlM_of_bounded (fun txout : CTxOut => txout.nValue.toInt) MAX_MONEY
      (fun txout hmem n hn hle => ?_) le_rfl (fun txout hmem => (h.value txout hmem).1) ?_
    · have hpos := (h.value txout hmem).1
      unfold addValueOut
      rw [if_pos ⟨h.value txout hmem, by omega, hle⟩]
    · rw [zero_add]
      exact h.nValueOut.2
  unfold CTransaction.valueOut
  rw [hloop, zero_add]
  rfl

/-! ## Views that agree -/

namespace FlatView

variable {view view' : FlatView} {tx : CTransaction} {txid : UInt256}

/-- Views that agree but for the coins of one transaction. -/
structure AgreeOff (txid : UInt256) (view view' : FlatView) : Prop where
  best : view.best = view'.best
  coins : ∀ hash, hash ≠ txid → view.coins hash = view'.coins hash

/-- A transaction that spends nothing of another one. -/
def Avoids (txid : UInt256) (tx : CTransaction) : Prop := ∀ txin ∈ tx.vin, txin.prevout.hash ≠ txid

theorem AgreeOff.output_eq (h : AgreeOff txid view view') {o : COutPoint} (ho : o.hash ≠ txid) :
    view.output o = view'.output o := by
  unfold output
  rw [h.coins _ ho]

theorem AgreeOff.setCoins (h : AgreeOff txid view view') (hash : UInt256) (coins : CCoins) :
    AgreeOff txid (view.setCoins hash coins) (view'.setCoins hash coins) where
  best := h.best
  coins := fun hash' hne => by
    unfold FlatView.setCoins
    dsimp only
    by_cases heq : hash' = hash
    · rw [heq, Function.update_self, Function.update_self]
    · rw [Function.update_of_ne heq, Function.update_of_ne heq, h.coins _ hne]

theorem agreeOff_setCoins (view : FlatView) (txid : UInt256) (coins : CCoins) :
    AgreeOff txid view (view.setCoins txid coins) where
  best := rfl
  coins := fun _ hne => (Function.update_of_ne hne ..).symm

/-- Views with the same coins at the inputs of a transaction. -/
def AgreeFor (tx : CTransaction) (view view' : FlatView) : Prop :=
  ∀ txin ∈ tx.vin, view.coins txin.prevout.hash = view'.coins txin.prevout.hash

theorem AgreeOff.agreeFor (h : AgreeOff txid view view') (htx : Avoids txid tx) :
    AgreeFor tx view view' := fun txin hmem => h.coins _ (htx txin hmem)

section Agree

variable (h : AgreeFor tx view view')
include h

theorem AgreeFor.haveInputs_eq : view.haveInputs tx = view'.haveInputs tx := by
  have hall : ∀ p : CTxIn → Option CCoins → Bool,
      (tx.vin.all fun txin => p txin (view.coins txin.prevout.hash)) =
        tx.vin.all fun txin => p txin (view'.coins txin.prevout.hash) := by
    intro p
    rw [Bool.eq_iff_iff, List.all_eq_true, List.all_eq_true]
    refine forall₂_congr fun txin hmem => ?_
    rw [h txin hmem]
  unfold haveInputs
  rw [hall fun _ coins => coins.isSome,
    hall fun txin coins => coins.any fun coins => coins.isAvailable txin.prevout.n.toNat]

theorem AgreeFor.getOutputFor_eq {txin : CTxIn} (hmem : txin ∈ tx.vin) :
    view.getOutputFor txin = view'.getOutputFor txin := by
  unfold getOutputFor output
  rw [h txin hmem]

theorem AgreeFor.getValueIn_eq : view.getValueIn tx = view'.getValueIn tx := by
  unfold getValueIn
  refine if_congr Iff.rfl rfl (foldlM_congr_of_mem _ fun txin hmem n => ?_)
  rw [h.getOutputFor_eq hmem]

theorem AgreeFor.getP2SHSigOpCount_eq : view.getP2SHSigOpCount tx = view'.getP2SHSigOpCount tx := by
  unfold getP2SHSigOpCount
  refine if_congr Iff.rfl rfl (foldlM_congr_of_mem _ fun txin hmem n => ?_)
  rw [h.getOutputFor_eq hmem]

theorem AgreeFor.checkAmounts_eq (nSpendHeight : ℤ) :
    checkAmounts view nSpendHeight tx = checkAmounts view' nSpendHeight tx := by
  unfold checkAmounts
  rw [foldlM_congr_of_mem _ fun txin hmem n => ?_]
  unfold checkInput
  rw [h txin hmem]

theorem AgreeFor.scriptCheck_eq (flags : UInt32) {input : CTxIn × ℕ} (hmem : input.1 ∈ tx.vin) :
    scriptCheck view tx flags input = scriptCheck view' tx flags input := by
  unfold scriptCheck
  rw [h input.1 hmem]

theorem AgreeFor.checkInputs_eq (hbest : view.best = view'.best) (env : ConnectEnv)
    (fScriptChecks : Bool) (flags : UInt32) (pvChecks : Bool) :
    checkInputs env view tx fScriptChecks flags pvChecks =
      checkInputs env view' tx fScriptChecks flags pvChecks := by
  have hscripts : checkScripts env view tx fScriptChecks flags pvChecks =
      checkScripts env view' tx fScriptChecks flags pvChecks := by
    have hchecks : tx.vin.zipIdx.mapM (scriptCheck view tx flags) =
        tx.vin.zipIdx.mapM (scriptCheck view' tx flags) :=
      mapM_congr_of_mem fun input hmem =>
        h.scriptCheck_eq flags (List.fst_mem_of_mem_zipIdx hmem)
    unfold checkScripts
    rw [hchecks]
  unfold checkInputs
  rw [h.haveInputs_eq, hbest, hscripts]
  simp only [h.checkAmounts_eq]

theorem AgreeFor.connectInputs_eq {env : ConnectEnv} {cf : ConnectFlags} {s : Connecting}
    (hview : s.view = view) (hbest : view.best = view'.best) :
    connectInputs env cf { s with view := view' } tx =
      (fun s' => { s' with view := view' }) <$> connectInputs env cf s tx := by
  subst hview
  unfold connectInputs
  dsimp only
  rw [h.haveInputs_eq, h.getP2SHSigOpCount_eq, h.getValueIn_eq, h.checkInputs_eq hbest]
  simp only [map_bind, map_pure]

end Agree

/-- Inputs of views that agree are spent in the same way. -/
theorem AgreeOff.spendInputs : ∀ {vin : List CTxIn} {view view' v : FlatView}
    {vprevout : List CTxInUndo}, AgreeOff txid view view' →
    (∀ txin ∈ vin, txin.prevout.hash ≠ txid) → FlatView.spendInputs vin view = .ok (v, vprevout) →
    ∃ v', FlatView.spendInputs vin view' = .ok (v', vprevout) ∧ AgreeOff txid v v'
  | [], view, view', v, vprevout, h, _, hspend => by
    cases hspend
    exact ⟨view', rfl, h⟩
  | txin :: vin, view, view', v, vprevout, h, hvin, hspend => by
    rw [List.forall_mem_cons] at hvin
    unfold FlatView.spendInputs spendCoins at hspend ⊢
    rw [← h.coins _ hvin.1]
    cases hcoins : (view.coins txin.prevout.hash).bind fun coins =>
        coins.spend txin.prevout.n.toNat with
    | none =>
      rw [hcoins] at hspend
      cases hspend
    | some spent =>
      rw [hcoins] at hspend
      have hagree := h.setCoins txin.prevout.hash spent.1
      cases hrest : FlatView.spendInputs vin (view.setCoins txin.prevout.hash spent.1) with
      | error e =>
        change (FlatView.spendInputs vin _ >>= fun r => _) = _ at hspend
        rw [hrest] at hspend
        cases hspend
      | ok rest =>
        obtain ⟨v', hrest', hagree'⟩ := hagree.spendInputs hvin.2 hrest
        change (FlatView.spendInputs vin _ >>= fun r => _) = _ at hspend
        rw [hrest] at hspend
        cases hspend
        refine ⟨v', ?_, hagree'⟩
        change (FlatView.spendInputs vin _ >>= fun r => _) = _
        rw [hrest']
        rfl

/-- Views that agree are changed in the same way. -/
theorem AgreeOff.updateCoins {v : FlatView} {vprevout : List CTxInUndo}
    (h : AgreeOff txid view view') (htx : Avoids txid tx) {nHeight : ℤ} {txhash : UInt256}
    (hupdate : view.updateCoins tx nHeight txhash = .ok (v, vprevout)) :
    ∃ v', view'.updateCoins tx nHeight txhash = .ok (v', vprevout) ∧ AgreeOff txid v v' := by
  unfold FlatView.updateCoins at hupdate ⊢
  cases hcb : tx.isCoinBase with
  | true =>
    rw [hcb] at hupdate
    cases hupdate
    exact ⟨_, rfl, h.setCoins _ _⟩
  | false =>
    rw [hcb] at hupdate
    cases hspend : FlatView.spendInputs tx.vin view with
    | error e =>
      change (FlatView.spendInputs tx.vin view >>= fun r => _) = _ at hupdate
      rw [hspend] at hupdate
      cases hupdate
    | ok spent =>
      change (FlatView.spendInputs tx.vin view >>= fun r => _) = _ at hupdate
      rw [hspend] at hupdate
      cases hupdate
      obtain ⟨v', hspend', hagree⟩ := h.spendInputs htx hspend
      refine ⟨_, ?_, hagree.setCoins txhash (.ofTx tx nHeight)⟩
      change (FlatView.spendInputs tx.vin view' >>= fun r => _) = _
      rw [hspend']
      rfl

end FlatView

/-! ## Checks that pass -/

section CheckInputs

variable {view : FlatView} {tx : CTransaction} {env : ConnectEnv} {pindexPrev : CBlockIndex}

/-- A block or transaction is rejected. -/
def Stop.Rejects (stop : Stop) : Prop := ∃ reject, stop = .invalid reject

theorem ends_stopIf (c : Prop) [Decidable c] (level : ℕ) (chRejectCode : UInt8)
    (strRejectReason : String) :
    Ends (fun _ => ¬c) Stop.Rejects (stopIf c (stateDoS level chRejectCode strRejectReason)) := by
  unfold stopIf
  split
  · exact ⟨_, rfl⟩
  · assumption

theorem ends_checkInput (nSpendHeight nValueIn : ℤ) {txin : CTxIn}
    (h : ∃ txout, view.output txin.prevout = some txout) :
    Ends (fun _ => True) Stop.Rejects (checkInput view nSpendHeight nValueIn txin) := by
  obtain ⟨txout, hout⟩ := h
  obtain ⟨coins, hcoins, hout⟩ := FlatView.output_eq_some.mp hout
  unfold checkInput
  rw [hcoins]
  dsimp only
  rw [(CCoins.output_eq_some.mp hout).1]
  exact (ends_stopIf ..).bind fun _ _ => (ends_stopIf ..).bind fun _ _ => trivial

theorem scriptCheck_eq_ok (flags : UInt32) {input : CTxIn × ℕ} {txout : CTxOut}
    (h : view.output input.1.prevout = some txout) :
    scriptCheck view tx flags input = .ok ⟨txout.scriptPubKey, tx, input.2, flags⟩ := by
  obtain ⟨coins, hcoins, hget⟩ := FlatView.output_eq_some.mp h
  unfold scriptCheck
  rw [hcoins, Option.bind_some, (CCoins.output_eq_some.mp hget).1]

theorem ends_runScriptCheck (check : CScriptCheck) :
    Ends (fun _ => True) Stop.Rejects (runScriptCheck env check) := by
  unfold runScriptCheck
  split
  · trivial
  · split
    · exact ⟨_, rfl⟩
    · exact ⟨_, rfl⟩

theorem ends_checkAmounts (nSpendHeight : ℤ)
    (hinputs : ∀ txin ∈ tx.vin, ∃ txout, view.output txin.prevout = some txout)
    {nValueOut : ℤ} (hout : tx.valueOut = .ok nValueOut) :
    Ends (fun _ => True) Stop.Rejects (checkAmounts view nSpendHeight tx) := by
  unfold checkAmounts
  rw [hout]
  have hloop :
      Ends (fun _ => True) Stop.Rejects (tx.vin.foldlM (checkInput view nSpendHeight) 0) := by
    refine (Ends.foldlM
      (P := fun vin _ => ∀ txin ∈ vin, ∃ txout, view.output txin.prevout = some txout)
      (fun txin vin n h => ?_) hinputs).mono (fun _ _ => trivial) fun _ h => h
    rw [List.forall_mem_cons] at h
    exact (ends_checkInput nSpendHeight n h.1).mono (fun _ _ => h.2) fun _ h => h
  exact hloop.bind fun _ _ => (ends_stopIf ..).bind fun _ _ => (ends_stopIf ..).bind fun _ _ =>
    (ends_stopIf ..).mono (fun _ _ => trivial) fun _ h => h

variable (env : ConnectEnv)

theorem ends_checkScripts
    (hinputs : ∀ txin ∈ tx.vin, ∃ txout, view.output txin.prevout = some txout)
    (fScriptChecks : Bool) (flags : UInt32) (pvChecks : Bool) :
    Ends (fun _ => True) Stop.Rejects (checkScripts env view tx fScriptChecks flags pvChecks) := by
  unfold checkScripts
  split
  · trivial
  · have hchecks : ∀ input ∈ tx.vin.zipIdx, Ends (fun _ => True) Stop.Rejects
        (scriptCheck view tx flags input) := by
      intro input hmem
      obtain ⟨txout, hout⟩ := hinputs _ (List.fst_mem_of_mem_zipIdx hmem)
      rw [scriptCheck_eq_ok flags hout]
      trivial
    refine (Ends.mapM hchecks).bind fun checks _ => ?_
    split
    · trivial
    · exact (Ends.forM fun check _ => ends_runScriptCheck check).bind fun _ _ => trivial

/-- `CheckInputs` of inputs that are available. -/
theorem checkInputs_eq (hcb : tx.isCoinBase = false) (hinputs : view.haveInputs tx = true)
    (hbest : env.mapBlockIndex[view.best]? = some pindexPrev) (fScriptChecks : Bool)
    (flags : UInt32) (pvChecks : Bool) :
    checkInputs env view tx fScriptChecks flags pvChecks =
      (checkAmounts view (pindexPrev.nHeight + 1) tx >>= fun _ =>
        checkScripts env view tx fScriptChecks flags pvChecks) := by
  unfold checkInputs
  rw [hcb, hinputs, if_neg (by decide), hbest]
  rfl

/-- `CheckInputs` of inputs that are available passes or rejects. What passes has its amounts
checked. -/
theorem ends_checkInputs (hcb : tx.isCoinBase = false) (hinputs : view.haveInputs tx = true)
    (hbest : env.mapBlockIndex[view.best]? = some pindexPrev) {nValueOut : ℤ}
    (hout : tx.valueOut = .ok nValueOut) (fScriptChecks : Bool) (flags : UInt32) (pvChecks : Bool) :
    Ends (fun _ => checkAmounts view (pindexPrev.nHeight + 1) tx = .ok ()) Stop.Rejects
      (checkInputs env view tx fScriptChecks flags pvChecks) := by
  have havailable := (FlatView.haveInputs_iff hcb).mp hinputs
  rw [checkInputs_eq env hcb hinputs hbest]
  have hamounts := ends_checkAmounts (pindexPrev.nHeight + 1) havailable hout
  cases h : checkAmounts view (pindexPrev.nHeight + 1) tx with
  | error stop => exact hamounts.of_error h
  | ok u =>
    exact (ends_checkScripts env havailable fScriptChecks flags pvChecks).mono (fun _ _ => rfl)
      fun _ h => h

/-- The script of an input and the script of the output that it spends verify. -/
def Verifies (view : FlatView) (flags : UInt32) (tx : CTransaction) : Prop :=
  ∀ nIn txin txout, tx.vin[nIn]? = some txin → view.output txin.prevout = some txout →
    env.verifyScript ⟨txout.scriptPubKey, tx, nIn, flags⟩ = true

/-- Checks of scripts that verify are passed, here or by another thread. -/
theorem exists_checkScripts {flags : UInt32} (hverify : Verifies env view flags tx)
    (hinputs : ∀ txin ∈ tx.vin, ∃ txout, view.output txin.prevout = some txout)
    (fScriptChecks pvChecks : Bool) : ∃ checks,
    checkScripts env view tx fScriptChecks flags pvChecks = .ok checks ∧
      ∀ check ∈ checks, env.verifyScript check = true := by
  have hchecks : Ends (fun checks => ∀ check ∈ checks, env.verifyScript check = true)
      (fun _ => False) (tx.vin.zipIdx.mapM (scriptCheck view tx flags)) := by
    refine Ends.mapM fun input hmem => ?_
    obtain ⟨txout, hout⟩ := hinputs _ (List.fst_mem_of_mem_zipIdx hmem)
    rw [scriptCheck_eq_ok flags hout]
    exact hverify _ _ _ (List.mem_zipIdx_iff_getElem?.mp hmem) hout
  unfold checkScripts
  split
  · exact ⟨[], rfl, List.forall_mem_nil _⟩
  · cases h : tx.vin.zipIdx.mapM (scriptCheck view tx flags) with
    | error stop => exact (hchecks.of_error h).elim
    | ok checks =>
      have hall := hchecks.of_ok h
      change ∃ checks', (if pvChecks then pure checks else checks.forM (runScriptCheck env) >>=
        fun _ => pure []) = .ok checks' ∧ _
      split
      · exact ⟨checks, rfl, hall⟩
      · have hrun : checks.forM (runScriptCheck env) = .ok () := forM_eq_ok.mpr fun check hmem => by
          unfold runScriptCheck
          rw [hall check hmem]
          rfl
        rw [hrun]
        exact ⟨[], rfl, List.forall_mem_nil _⟩

end CheckInputs

section ConnectTx

variable {H : Bytes → UInt256} {env : ConnectEnv} {cf : ConnectFlags} {s : Connecting}
  {tx : CTransaction} {pindexPrev : CBlockIndex}

theorem addSigOps_eq_ok {nSigOps n : ℕ} (h : nSigOps + n ≤ MAX_BLOCK_SIGOPS) :
    addSigOps nSigOps n = .ok (nSigOps + n) := by
  unfold addSigOps stopIf
  rw [if_neg (by omega)]
  rfl

/-- Inputs that are available, with their amounts and scripts. -/
structure Connects (env : ConnectEnv) (pindexPrev : CBlockIndex) (flags : UInt32) (view : FlatView)
    (tx : CTransaction) : Prop where
  notCoinBase : tx.isCoinBase = false
  haveInputs : view.haveInputs tx = true
  best : env.mapBlockIndex[view.best]? = some pindexPrev
  amounts : checkAmounts view (pindexPrev.nHeight + 1) tx = .ok ()
  verifies : Verifies env view flags tx

theorem Connects.exists_checkInputs {flags : UInt32} {view : FlatView}
    (h : Connects env pindexPrev flags view tx) (fScriptChecks pvChecks : Bool) : ∃ checks,
    checkInputs env view tx fScriptChecks flags pvChecks = .ok checks ∧
      ∀ check ∈ checks, env.verifyScript check = true := by
  obtain ⟨checks, hchecks, hall⟩ := exists_checkScripts env h.verifies
    ((FlatView.haveInputs_iff h.notCoinBase).mp h.haveInputs) fScriptChecks pvChecks
  refine ⟨checks, ?_, hall⟩
  rw [checkInputs_eq env h.notCoinBase h.haveInputs h.best, h.amounts]
  exact hchecks

theorem exists_connectInputs (h : Connects env pindexPrev cf.flags s.view tx)
    {nValueIn nValueOut : ℤ} {nP2SHSigOps : ℕ} (hin : s.view.getValueIn tx = .ok nValueIn)
    (hout : tx.valueOut = .ok nValueOut) (hp2sh : s.view.getP2SHSigOpCount tx = .ok nP2SHSigOps)
    (hlimit : s.nSigOps + nP2SHSigOps ≤ MAX_BLOCK_SIGOPS) :
    ∃ nSigOps checks, connectInputs env cf s tx = .ok { s with
        nSigOps := nSigOps
        nFees := s.nFees + (nValueIn - nValueOut)
        control := s.control ++ checks } ∧
      nSigOps ≤ s.nSigOps + nP2SHSigOps ∧ ∀ check ∈ checks, env.verifyScript check = true := by
  obtain ⟨checks, hchecks, hall⟩ :=
    h.exists_checkInputs cf.fScriptChecks (env.nScriptCheckThreads ≠ 0)
  unfold connectInputs
  rw [h.haveInputs, hin, hout, hp2sh, hchecks]
  split
  · refine ⟨s.nSigOps + nP2SHSigOps, checks, ?_, le_rfl, hall⟩
    change (addSigOps s.nSigOps nP2SHSigOps >>= fun nSigOps => _) = _
    rw [addSigOps_eq_ok hlimit]
    rfl
  · exact ⟨s.nSigOps, checks, rfl, Nat.le_add_right _ _, hall⟩

/-- A transaction that may spend its inputs is connected. -/
theorem exists_connectTx (h : Connects env pindexPrev cf.flags s.view tx) {nValueIn nValueOut : ℤ}
    {nP2SHSigOps : ℕ} (hin : s.view.getValueIn tx = .ok nValueIn)
    (hout : tx.valueOut = .ok nValueOut) (hp2sh : s.view.getP2SHSigOpCount tx = .ok nP2SHSigOps)
    (hlimit : s.nSigOps + (getLegacySigOpCount tx + nP2SHSigOps) ≤ MAX_BLOCK_SIGOPS)
    {view' : FlatView} {vprevout : List CTxInUndo}
    (hupdate : s.view.updateCoins tx cf.nHeight (tx.getHash H) = .ok (view', vprevout)) :
    ∃ s', connectTx H env cf s tx = .ok s' ∧ s'.view = view' ∧
      s'.nFees = s.nFees + (nValueIn - nValueOut) ∧
      s'.nSigOps ≤ s.nSigOps + (getLegacySigOpCount tx + nP2SHSigOps) ∧
      ∀ check ∈ s'.control, check ∈ s.control ∨ env.verifyScript check = true := by
  obtain ⟨nSigOps, checks, hconnect, hle, hall⟩ := exists_connectInputs
    (s := { s with nSigOps := s.nSigOps + getLegacySigOpCount tx }) h hin hout hp2sh (by
      dsimp only
      omega)
  unfold connectTx
  rw [addSigOps_eq_ok (by omega), h.notCoinBase]
  change ∃ s', (connectInputs env cf { s with nSigOps := s.nSigOps + getLegacySigOpCount tx } tx >>=
    fun s => _) = .ok s' ∧ _
  rw [hconnect]
  change ∃ s', (s.view.updateCoins tx cf.nHeight (tx.getHash H) >>= fun r => _) = .ok s' ∧ _
  rw [hupdate]
  refine ⟨_, rfl, rfl, rfl, ?_, fun check hmem => ?_⟩
  · dsimp only at hle ⊢
    omega
  · exact (List.mem_append.mp hmem).imp_right fun hmem => hall check hmem

end ConnectTx

end Ticoin
