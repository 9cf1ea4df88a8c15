import Ticoin.ChainParams
import Ticoin.Lib.Ledger
import Ticoin.Lib.Machine
import Ticoin.Script

/-!
# Validation that needs no coins

A validation function of `main.cpp` returns `false` after one call on its
`CValidationState`, or returns `true` and leaves the state alone. So it is a computation
that may stop, with what was reported (`Stop`).

`CheckTransaction` and `CheckBlock` need no context but the clock. `acceptBlockChecks` are
the checks `AcceptBlock` makes of a block on the entry of its predecessor. The lemmas say
what a transaction or a block that was accepted looks like.
-/

namespace Ticoin

open Codec

/-! ## Validation states -/

def REJECT_INVALID : UInt8 := 0x10
def REJECT_OBSOLETE : UInt8 := 0x11
def REJECT_CHECKPOINT : UInt8 := 0x43
def REJECT_NONSTANDARD : UInt8 := 0x40

/-- The arguments of a call of `CValidationState::DoS`. -/
structure Reject where
  level : ℕ
  chRejectCode : UInt8
  strRejectReason : String
  corruptionPossible : Bool
  deriving DecidableEq, Repr

/-- How validation stops : the block or transaction is rejected, a run-time error is
reported, an error is returned that is not reported, an exception is thrown, or an
assertion fails or the behaviour is undefined. -/
inductive Stop
  | invalid (reject : Reject)
  | error (strRejectReason : String)
  | unreported
  | throw (what : String)
  | undefined
  deriving DecidableEq, Repr

/-- A validation function. -/
abbrev Check := Except Stop Unit

/-- `return state.DoS(level, error(...), chRejectCode, strRejectReason)`. -/
def stateDoS (level : ℕ) (chRejectCode : UInt8) (strRejectReason : String) : Check :=
  .error (.invalid ⟨level, chRejectCode, strRejectReason, false⟩)

/-- `state.DoS` with `corruptionIn`. -/
def stateCorrupt (level : ℕ) (chRejectCode : UInt8) (strRejectReason : String) : Check :=
  .error (.invalid ⟨level, chRejectCode, strRejectReason, true⟩)

/-- `return state.Invalid(error(...), chRejectCode, strRejectReason)`. -/
def stateInvalid (chRejectCode : UInt8) (strRejectReason : String) : Check :=
  stateDoS 0 chRejectCode strRejectReason

/-- `if (c) return ...`. -/
def stopIf (c : Prop) [Decidable c] (stop : Check) : Check := if c then stop else .ok ()

theorem bind_stopIf_eq_ok {α : Type} {c : Prop} [Decidable c] {e : Stop} {f : Unit → Except Stop α}
    {r : α} : (stopIf c (.error e) >>= f) = .ok r ↔ ¬c ∧ f () = .ok r := by
  by_cases h : c <;> simp [stopIf, h, bind, Except.bind]

theorem stopIf_eq_ok {c : Prop} [Decidable c] {e : Stop} : stopIf c (.error e) = .ok () ↔ ¬c := by
  by_cases h : c <;> simp [stopIf, h]

theorem forM_eq_ok {α : Type} {f : α → Check} : ∀ {l : List α},
    l.forM f = .ok () ↔ ∀ a ∈ l, f a = .ok ()
  | [] => by simp [pure, Except.pure]
  | a :: l => by
    have ih := forM_eq_ok (f := f) (l := l)
    have hcons : (a :: l).forM f = (f a >>= fun _ => l.forM f) := rfl
    rw [hcons]
    cases h : f a with
    | error e => simp [h, bind, Except.bind]
    | ok u => simpa [h, bind, Except.bind] using ih

/-! ## Transactions -/

/-- Outputs whose `GetValueOut` returns are in range, and so is every part of their sum. -/
theorem value_of_getValueOut {tx : CTransaction} {nValueOut : ℤ} (h : tx.getValueOut = .ok nValueOut) :
    nValueOut = (tx.vout.map fun txout => txout.nValue.toInt).sum ∧
      (∀ txout ∈ tx.vout, MoneyRange txout.nValue.toInt) ∧ nValueOut ≤ MAX_MONEY := by
  have hstep : ∀ (n : ℤ) (txout : CTxOut) (m : ℤ), addValueOut n txout = .ok m →
      m = n + txout.nValue.toInt ∧ MoneyRange txout.nValue.toInt ∧ m ≤ MAX_MONEY := by
    intro n txout m hm
    rw [addValueOut] at hm
    split at hm
    · rename_i hrange
      cases hm
      exact ⟨rfl, hrange.1, hrange.2.2⟩
    · cases hm
  refine ⟨(Ledger.eq_add_sum_of_foldlM _ (fun n x m hm => (hstep n x m hm).1) h).trans (zero_add _),
    Ledger.forall_of_foldlM (fun n x m hm => (hstep n x m hm).2.1) h, ?_⟩
  refine Machine.invariant_of_steps (P := (· ≤ MAX_MONEY)) ?_ (Machine.steps_of_foldlM _ h) (by decide)
  rintro n m - ⟨x, hx⟩
  exact (hstep n x m hx).2.2

/-- A step of the loop over the outputs : the value is checked, then the sum. -/
def checkValueOut (nValueOut : ℤ) (txout : CTxOut) : Except Stop ℤ := do
  stopIf (txout.nValue.toInt < 0) (stateDoS 100 REJECT_INVALID "bad-txns-vout-negative")
  stopIf (txout.nValue.toInt > MAX_MONEY) (stateDoS 100 REJECT_INVALID "bad-txns-vout-toolarge")
  stopIf (¬MoneyRange (nValueOut + txout.nValue.toInt))
    (stateDoS 100 REJECT_INVALID "bad-txns-txouttotal-toolarge")
  return nValueOut + txout.nValue.toInt

/-- The checks of the inputs : of the script of a coinbase, of the prevouts otherwise. -/
def checkPrevouts (tx : CTransaction) : Check :=
  if tx.isCoinBase then
    stopIf (∃ txin ∈ tx.vin, txin.scriptSig.length < 2 ∨ txin.scriptSig.length > 100)
      (stateDoS 100 REJECT_INVALID "bad-cb-length")
  else
    stopIf (∃ txin ∈ tx.vin, txin.prevout.isNull) (stateDoS 10 REJECT_INVALID "bad-txns-prevout-null")

/-- `CheckTransaction`. -/
def checkTransaction (tx : CTransaction) : Check := do
  stopIf (tx.vin = []) (stateDoS 10 REJECT_INVALID "bad-txns-vin-empty")
  stopIf (tx.vout = []) (stateDoS 10 REJECT_INVALID "bad-txns-vout-empty")
  stopIf (tx.serialize.length > MAX_BLOCK_SIZE) (stateDoS 100 REJECT_INVALID "bad-txns-oversize")
  let _ ← tx.vout.foldlM checkValueOut 0
  stopIf (¬(tx.vin.map CTxIn.prevout).Nodup) (stateDoS 100 REJECT_INVALID "bad-txns-inputs-duplicate")
  checkPrevouts tx

/-- What a transaction that was accepted looks like. -/
structure CheckedTransaction (tx : CTransaction) : Prop where
  vin : tx.vin ≠ []
  vout : tx.vout ≠ []
  size : tx.serialize.length ≤ MAX_BLOCK_SIZE
  value : ∀ txout ∈ tx.vout, MoneyRange txout.nValue.toInt
  nValueOut : MoneyRange (tx.vout.map fun txout => txout.nValue.toInt).sum
  prevouts : (tx.vin.map CTxIn.prevout).Nodup
  not_null : tx.isCoinBase = false → ∀ txin ∈ tx.vin, txin.prevout.isNull = false

theorem checkValueOut_eq_ok {nValueOut r : ℤ} {txout : CTxOut}
    (h : checkValueOut nValueOut txout = .ok r) :
    MoneyRange txout.nValue.toInt ∧ MoneyRange r ∧ r = nValueOut + txout.nValue.toInt := by
  simp only [checkValueOut, stateDoS, bind_stopIf_eq_ok, pure, Except.pure, Except.ok.injEq] at h
  obtain ⟨hneg, hlarge, hsum, rfl⟩ := h
  exact ⟨⟨not_lt.mp hneg, not_lt.mp hlarge⟩, not_not.mp hsum, rfl⟩

/-- The loop over the outputs adds up their values. -/
theorem foldlM_checkValueOut : ∀ (vout : List CTxOut) {nValueOut r : ℤ},
    vout.foldlM checkValueOut nValueOut = .ok r →
    r = nValueOut + (vout.map fun txout => txout.nValue.toInt).sum ∧
      (∀ txout ∈ vout, MoneyRange txout.nValue.toInt) ∧ (vout ≠ [] → MoneyRange r)
  | [], nValueOut, r, h => by
    cases h
    simp
  | txout :: vout, nValueOut, r, h => by
    rw [List.foldlM_cons] at h
    cases hstep : checkValueOut nValueOut txout with
    | error e => simp [hstep, bind, Except.bind] at h
    | ok n =>
      rw [hstep] at h
      obtain ⟨hvalue, hrange, rfl⟩ := checkValueOut_eq_ok hstep
      obtain ⟨rfl, hall, hne⟩ := foldlM_checkValueOut vout h
      refine ⟨by simp only [List.map_cons, List.sum_cons]; ring, ?_, fun _ => ?_⟩
      · intro o ho
        rcases List.mem_cons.mp ho with rfl | ho
        · exact hvalue
        · exact hall o ho
      · cases vout with
        | nil => simpa using hrange
        | cons o vout => exact hne nofun

theorem checkTransaction_eq_ok {tx : CTransaction} (h : checkTransaction tx = .ok ()) :
    CheckedTransaction tx := by
  simp only [checkTransaction, stateDoS, bind_stopIf_eq_ok] at h
  obtain ⟨hvin, hvout, hsize, h⟩ := h
  cases hloop : tx.vout.foldlM checkValueOut 0 with
  | error e => simp [hloop, bind, Except.bind] at h
  | ok r =>
    rw [hloop] at h
    have h' : ((stopIf (¬(tx.vin.map CTxIn.prevout).Nodup)
        (.error (.invalid ⟨100, REJECT_INVALID, "bad-txns-inputs-duplicate", false⟩))) >>= fun _ =>
          checkPrevouts tx) = .ok () := h
    rw [bind_stopIf_eq_ok, not_not] at h'
    obtain ⟨rfl, hall, hne⟩ := foldlM_checkValueOut tx.vout hloop
    refine ⟨hvin, hvout, not_lt.mp hsize, hall, by simpa using hne hvout, h'.1, fun hcb => ?_⟩
    have hprev := h'.2
    simp only [checkPrevouts, hcb, Bool.false_eq_true, if_false, stateDoS, stopIf_eq_ok] at hprev
    intro txin hmem
    by_contra hnull
    exact hprev ⟨txin, hmem, by simpa using hnull⟩

/-! ## Blocks -/

/-- The maximum allowed number of signature operations in a block. -/
def MAX_BLOCK_SIGOPS : ℕ := MAX_BLOCK_SIZE / 50

def getLegacySigOpCount (tx : CTransaction) : ℕ :=
  (tx.vin.map fun txin => getSigOpCount txin.scriptSig false).sum +
    (tx.vout.map fun txout => getSigOpCount txout.scriptPubKey false).sum

variable (H : Bytes → UInt256)

/-- `CheckBlock`. -/
def checkBlock (params : ChainParams) (nAdjustedTime : ℤ) (block : CBlock)
    (fCheckPOW fCheckMerkleRoot : Bool) : Check := do
  -- size limits
  stopIf (block.vtx = [] ∨ block.vtx.length > MAX_BLOCK_SIZE ∨
    block.serialize.length > MAX_BLOCK_SIZE) (stateDoS 100 REJECT_INVALID "bad-blk-length")
  -- proof of work matches claimed amount
  stopIf (fCheckPOW ∧ ¬checkProofOfWork params (block.getHash H) block.nBits)
    (stateDoS 50 REJECT_INVALID "high-hash")
  stopIf (block.getBlockTime > nAdjustedTime + 2 * 60 * 60) (stateInvalid REJECT_INVALID "time-too-new")
  -- first transaction must be coinbase, the rest must not be
  stopIf (¬block.vtx.head?.any CTransaction.isCoinBase) (stateDoS 100 REJECT_INVALID "bad-cb-missing")
  stopIf (block.vtx.tail.any CTransaction.isCoinBase) (stateDoS 100 REJECT_INVALID "bad-cb-multiple")
  block.vtx.forM checkTransaction
  stopIf (¬(block.vtx.map (CTransaction.getHash H)).Nodup)
    (stateCorrupt 100 REJECT_INVALID "bad-txns-duplicate")
  stopIf ((block.vtx.map getLegacySigOpCount).sum > MAX_BLOCK_SIGOPS)
    (stateCorrupt 100 REJECT_INVALID "bad-blk-sigops")
  stopIf (fCheckMerkleRoot ∧ block.hashMerkleRoot ≠ block.buildMerkleTree H)
    (stateCorrupt 100 REJECT_INVALID "bad-txnmrklroot")

/-- What a block that was accepted looks like. -/
structure CheckedBlock (block : CBlock) : Prop where
  size : block.serialize.length ≤ MAX_BLOCK_SIZE
  coinbase : ∃ tx vtx, block.vtx = tx :: vtx ∧ tx.isCoinBase = true ∧
    ∀ tx' ∈ vtx, tx'.isCoinBase = false
  vtx : ∀ tx ∈ block.vtx, CheckedTransaction tx
  txids : (block.vtx.map (CTransaction.getHash H)).Nodup

variable {H} in
theorem checkBlock_eq_ok {params : ChainParams} {nAdjustedTime : ℤ} {block : CBlock}
    {fCheckPOW fCheckMerkleRoot : Bool}
    (h : checkBlock H params nAdjustedTime block fCheckPOW fCheckMerkleRoot = .ok ()) :
    CheckedBlock H block := by
  simp only [checkBlock, stateDoS, stateInvalid, stateCorrupt, bind_stopIf_eq_ok] at h
  obtain ⟨hsize, -, -, hfirst, hrest, h⟩ := h
  cases htxs : block.vtx.forM checkTransaction with
  | error e => simp [htxs, bind, Except.bind] at h
  | ok u =>
    rw [htxs] at h
    have h' := (bind_stopIf_eq_ok.mp h).1
    refine ⟨by omega, ?_, fun tx htx => checkTransaction_eq_ok (forM_eq_ok.mp htxs tx htx),
      not_not.mp h'⟩
    cases hvtx : block.vtx with
    | nil => simp [hvtx] at hsize
    | cons tx vtx =>
      rw [hvtx] at hfirst hrest
      simp only [List.head?_cons, Option.any_some, not_not] at hfirst
      refine ⟨tx, vtx, rfl, hfirst, fun tx' htx' => ?_⟩
      by_contra hcb
      exact hrest (List.any_eq_true.mpr ⟨tx', htx', by simpa using hcb⟩)

/-- Coinbase outputs can be spent after so many blocks. -/
def COINBASE_MATURITY : ℤ := 100

/-! ## Blocks on their predecessor -/

/-- Threshold for `nLockTime` : below it is a height, else a time. -/
def LOCKTIME_THRESHOLD : ℕ := 500000000

/-- `IsFinalTx`, with the height of the active chain and the clock that stand in for a height
and a time of zero. -/
def isFinalTx (nChainHeight nAdjustedTime : ℤ) (tx : CTransaction) (nBlockHeight nBlockTime : ℤ) :
    Bool :=
  if tx.nLockTime = 0 then true
  else
    let nBlockHeight := if nBlockHeight = 0 then nChainHeight else nBlockHeight
    let nBlockTime := if nBlockTime = 0 then nAdjustedTime else nBlockTime
    let nLimit := if tx.nLockTime.toNat < LOCKTIME_THRESHOLD then nBlockHeight else nBlockTime
    if (tx.nLockTime.toNat : ℤ) < nLimit then true else tx.vin.all CTxIn.isFinal

/-- `IsSuperMajority` with the thresholds of the network. -/
def superMajority (params : ChainParams) (minVersion : Int32) (pindexPrev : CBlockIndex)
    (nRequired nRequiredTestNet : ℕ) : Bool :=
  if params.testNet then pindexPrev.isSuperMajority minVersion nRequiredTestNet 100
  else pindexPrev.isSuperMajority minVersion nRequired 1000

/-- The script of the first input of the first transaction. -/
def CBlock.coinbaseScript (block : CBlock) : Except Stop Bytes :=
  match block.vtx.head?.bind (·.vin.head?) with
  | none => .error .undefined
  | some txin => .ok txin.scriptSig

/-- The rule that the coinbase starts with the serialized block height. -/
def checkCoinbaseHeight (block : CBlock) (nHeight : ℕ) : Check := do
  let scriptSig ← block.coinbaseScript
  stopIf (¬(pushInt64 nHeight).isPrefixOf scriptSig) (stateDoS 100 REJECT_INVALID "bad-cb-height")

/-- The checks of `AcceptBlock` on the entry of the predecessor. -/
def acceptBlockChecks (params : ChainParams) (checkpoints : List (ℕ × UInt256))
    (pcheckpoint : Option CBlockIndex) (nChainHeight nAdjustedTime : ℤ) (pindexPrev : CBlockIndex)
    (block : CBlock) : Check := do
  let nHeight := pindexPrev.nHeight + 1
  match getNextWorkRequired params pindexPrev block.toCBlockHeader with
  | none => .error .undefined
  | some nBits => stopIf (block.nBits ≠ nBits) (stateDoS 100 REJECT_INVALID "bad-diffbits")
  stopIf (block.getBlockTime ≤ pindexPrev.getMedianTimePast) (stateInvalid REJECT_INVALID "time-too-old")
  stopIf (¬block.vtx.all fun tx => isFinalTx nChainHeight nAdjustedTime tx nHeight block.getBlockTime)
    (stateDoS 10 REJECT_INVALID "bad-txns-nonfinal")
  stopIf (¬Checkpoints.checkBlock checkpoints nHeight (block.getHash H))
    (stateDoS 100 REJECT_CHECKPOINT "checkpoint mismatch")
  -- no forks from the main chain prior to the last checkpoint
  stopIf (pcheckpoint.any fun p => nHeight < p.nHeight) (stateDoS 100 0 "")
  stopIf (block.nVersion < 2 ∧ superMajority params 2 pindexPrev 950 75)
    (stateInvalid REJECT_OBSOLETE "bad-version")
  stopIf (block.nVersion < 3 ∧ superMajority params 3 pindexPrev 950 75)
    (stateInvalid REJECT_OBSOLETE "bad-version")
  if block.nVersion ≥ 2 ∧ superMajority params 2 pindexPrev 750 51 then
    checkCoinbaseHeight block nHeight

end Ticoin
