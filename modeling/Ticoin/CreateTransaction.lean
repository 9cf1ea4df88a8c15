import Ticoin.CanonicalFormat
import Ticoin.CoinSelection
import Ticoin.ListSinceBlock
import Ticoin.Lib.Ledger
import Ticoin.ScriptDestinations

/-!
# CreateTransaction : payments and their fees

A round of `CreateTransaction` writes the outputs, chooses coins for them and the fee so far, gives
back the change or moves it to the fee, signs, and starts again with a higher fee if the one so far
is too low for the size. What is moved from the change is added to the fee, so that the coins are
worth the outputs and the fee at every place (`attempt_created`). The next round starts with a fee
that is higher and that the greatest size bounds (`attempt_retry`), and so the loop ends
(`createTransaction_balances`).
-/

namespace Ticoin

open Codec Int64Sum

/-! ## AvailableCoins -/

/-- What the user chose of the inputs and the change. -/
structure CCoinControl where
  destChange : CTxDestination
  setSelected : List COutPoint

def CCoinControl.hasSelected (c : CCoinControl) : Bool := !c.setSelected.isEmpty

def CCoinControl.isSelected (c : CCoinControl) (hash : UInt256) (n : UInt32) : Bool :=
  c.setSelected.contains ⟨hash, n⟩

namespace WalletView

variable (H : Bytes → UInt256) (hash160 : Bytes → UInt160) (s : WalletView)

/-- `IsFromMe`, where `GetDebit` is in range. -/
def isFromMe (wtx : CWalletTx) : Bool :=
  match s.getDebit hash160 wtx.toCTransaction with
  | .ok nDebit => decide (nDebit > 0)
  | .error _ => false

/-- Whether an output can be spent, and is selected if any are. -/
def spendable (isLockedCoin : COutPoint → Bool) (coinControl : Option CCoinControl)
    (wtxid : UInt256) (c : OutRef) : Bool :=
  !s.isSpent H wtxid (.ofNat c.n) && s.isMineOut hash160 (c.tx.vout.get c.n) &&
    !isLockedCoin ⟨wtxid, .ofNat c.n⟩ && decide (c.nValue > 0) &&
    coinControl.all fun control =>
      !control.hasSelected || control.isSelected wtxid (.ofNat c.n)

/-- The outputs of a transaction. -/
def outRefs (wtx : CWalletTx) : List OutRef :=
  (List.finRange wtx.vout.length).map fun i => ⟨wtx, i⟩

/-- The coins of one transaction. -/
def availableOf (isLockedCoin : COutPoint → Bool) (fOnlyConfirmed : Bool)
    (coinControl : Option CCoinControl) (wtxid : UInt256) (pcoin : CWalletTx) :
    Calc (List COutput) := do
  if !isFinalTx s.chainActive.height s.nAdjustedTime pcoin.toCTransaction 0 0 then return []
  let fTrusted ← (if fOnlyConfirmed then s.isTrusted H hash160 pcoin else .ok true)
  if !fTrusted then return []
  if pcoin.isCoinBase ∧ s.getBlocksToMaturity H pcoin > 0 then return []
  let nDepth := s.getDepthInMainChain H pcoin
  if nDepth < 0 then return []
  return ((outRefs pcoin).filter (s.spendable H hash160 isLockedCoin coinControl wtxid)).map
    fun c => ⟨c, nDepth⟩

/-- The loop of `AvailableCoins`. -/
def availableFrom (isLockedCoin : COutPoint → Bool) (fOnlyConfirmed : Bool)
    (coinControl : Option CCoinControl) : List (UInt256 × CWalletTx) → Calc (List COutput)
  | [] => .ok []
  | (wtxid, pcoin) :: wallet => do
    let vCoins ← s.availableOf H hash160 isLockedCoin fOnlyConfirmed coinControl wtxid pcoin
    let rest ← availableFrom isLockedCoin fOnlyConfirmed coinControl wallet
    return vCoins ++ rest

/-- `AvailableCoins`. -/
def availableCoins (isLockedCoin : COutPoint → Bool) (fOnlyConfirmed : Bool)
    (coinControl : Option CCoinControl) : Calc (List COutput) :=
  s.availableFrom H hash160 isLockedCoin fOnlyConfirmed coinControl s.wallet.mapWallet.toList

end WalletView

/-! ## SelectCoins -/

/-- `SelectCoins` : all the coins the user selected, or coins that are more and more recent. -/
def selectCoins (isFromMe : CWalletTx → Bool) (bSpendZeroConfChange : Bool)
    (rand : Fin 3 → SelectionRandom) (nTargetValue : Int64) (coinControl : Option CCoinControl)
    (vCoins : List COutput) : Bool × Selection :=
  if coinControl.any CCoinControl.hasSelected then
    let r := Selection.collect (vCoins.map COutput.coin)
    (decide (r.nValueRet ≥ nTargetValue), r)
  else
    let r := selectCoinsMinConf isFromMe (rand 0) nTargetValue 1 6 vCoins
    if r.1 then r
    else
      let r := selectCoinsMinConf isFromMe (rand 1) nTargetValue 1 1 vCoins
      if r.1 then r
      else if bSpendZeroConfChange then
        selectCoinsMinConf isFromMe (rand 2) nTargetValue 0 1 vCoins
      else r

/-! ## Fees and dust -/

def MAX_STANDARD_TX_SIZE : UInt32 := 100000
def DEFAULT_BLOCK_PRIORITY_SIZE : UInt32 := 50000

/-- `IsDust` : spending the output would cost more than a third of it. -/
def CTxOut.isDust (txout : CTxOut) (nMinRelayTxFee : Int64) : Bool :=
  decide (txout.nValue * 1000 / Int64.ofNat (3 * (txout.getSerializeSize.toNat + 148)) <
    nMinRelayTxFee)

/-- The fees of `CTransaction`. -/
structure TxFees where
  nMinTxFee : Int64
  nMinRelayTxFee : Int64

inductive GetMinFeeMode
  | relay
  | send
  deriving DecidableEq

/-- `MoneyRange`. -/
def moneyRange (nValue : Int64) : Bool := decide (0 ≤ nValue.toInt ∧ nValue.toInt ≤ MAX_MONEY)

/-- `GetMinFee`. -/
def getMinFee (fees : TxFees) (tx : CTransaction) (nBytes : UInt32) (fAllowFree : Bool)
    (mode : GetMinFeeMode) : Int64 :=
  let nBaseFee := if mode = .relay then fees.nMinRelayTxFee else fees.nMinTxFee
  let nMinFee := (1 + Int64.ofNat nBytes.toNat / 1000) * nBaseFee
  -- the free area of blocks
  let nMinFee :=
    if fAllowFree ∧ nBytes < (if mode = .send then 1000 else DEFAULT_BLOCK_PRIORITY_SIZE - 1000)
    then 0 else nMinFee
  let nMinFee :=
    if nMinFee < nBaseFee ∧ mode = .send ∧ tx.vout.any (fun txout => decide (txout.nValue < CENT))
    then nBaseFee else nMinFee
  if !moneyRange nMinFee then Int64.ofInt MAX_MONEY else nMinFee

/-! ## CreateTransaction -/

/-- Why no transaction is returned. -/
inductive CreateError
  | failed (strFailReason : String)
  | assertion
  | thrown (fault : Fault)
  | outOfFuel
  deriving DecidableEq

/-- What a call reads : the wallet, its settings, what the user chose, and the signatures. -/
structure CreateEnv where
  view : WalletView
  isLockedCoin : COutPoint → Bool
  coinControl : Option CCoinControl
  nTransactionFee : Int64
  fees : TxFees
  /-- the `scriptSig` that `SignSignature` writes -/
  signSignature : CWalletTx → CTransaction → ℕ → Option Bytes

/-- What differs between rounds : the random choices, the order of the set of coins, the key from
the pool, and the priority. -/
structure Attempt where
  rand : Fin 3 → SelectionRandom
  setOrder : List OutRef → List OutRef
  setOrder_perm : ∀ coins, (setOrder coins).Perm coins
  reservedKey : Option CKeyID
  position : ℕ → ℕ
  fAllowFree : Bool

/-- The loop over the amounts of the payees. -/
def sumAmounts (vecSend : List (Bytes × Int64)) : Except CreateError Int64 :=
  vecSend.foldlM (fun nValue s =>
    if nValue < 0 then .error (.failed "Transaction amounts must be positive")
    else .ok (nValue + s.2)) 0

/-- The outputs to the payees. -/
def payeeOutputs (fees : TxFees) (vecSend : List (Bytes × Int64)) :
    Except CreateError (List CTxOut) :=
  let vout := vecSend.map fun s => ⟨s.2, s.1⟩
  if vout.any fun txout => txout.isDust fees.nMinRelayTxFee then
    .error (.failed "Transaction amount too small")
  else .ok vout

/-- A change below a cent raises a fee that is below the least one. -/
def moveToFee (fees : TxFees) (nChange nFeeRet : Int64) : Int64 × Int64 :=
  if nFeeRet < fees.nMinTxFee ∧ nChange > 0 ∧ nChange < CENT then
    let nMoveToFee :=
      if fees.nMinTxFee - nFeeRet < nChange then fees.nMinTxFee - nFeeRet else nChange
    (nChange - nMoveToFee, nFeeRet + nMoveToFee)
  else (nChange, nFeeRet)

/-- The script for the change. -/
def scriptChange (coinControl : Option CCoinControl) (reservedKey : Option CKeyID) :
    Except CreateError Bytes :=
  match coinControl.map CCoinControl.destChange with
  | none | some .noDestination =>
    match reservedKey with
    | none => .error .assertion
    | some keyID => .ok (setDestination (.keyID keyID))
  | some dest => .ok (setDestination dest)

/-- The outputs with the change, unless it is dust, which is added to the fee. -/
def addChange (env : CreateEnv) (a : Attempt) (vout : List CTxOut) (nChange nFeeRet : Int64) :
    Except CreateError (List CTxOut × Int64) :=
  if nChange > 0 then do
    let script ← scriptChange env.coinControl a.reservedKey
    let newTxOut : CTxOut := ⟨nChange, script⟩
    if newTxOut.isDust env.fees.nMinRelayTxFee then return (vout, nFeeRet + nChange)
    let n := a.position vout.length
    return (vout.take n ++ newTxOut :: vout.drop n, nFeeRet)
  else .ok (vout, nFeeRet)

/-- The inputs are signed one after the other. -/
def signInputs (signSignature : CWalletTx → CTransaction → ℕ → Option Bytes)
    (coins : List OutRef) (tx : CTransaction) : Except CreateError CTransaction :=
  coins.zipIdx.foldlM (fun tx c =>
    match signSignature c.1.tx tx c.2 with
    | none => .error (.failed "Signing transaction failed")
    | some scriptSig =>
      .ok { tx with vin := tx.vin.modify c.2 fun txin => { txin with scriptSig := scriptSig } }) tx

/-- The fee that a transaction of a size needs. -/
def requiredFee (env : CreateEnv) (fAllowFree : Bool) (tx : CTransaction) : Int64 :=
  let nBytes := tx.getSerializeSize
  let nPayFee := env.nTransactionFee * (1 + Int64.ofNat nBytes.toNat / 1000)
  let nMinFee := getMinFee env.fees tx nBytes fAllowFree .send
  if nPayFee < nMinFee then nMinFee else nPayFee

section Create

variable (H : Bytes → UInt256) (hash160 : Bytes → UInt160) (env : CreateEnv)
  (vecSend : List (Bytes × Int64)) (wtxNew : CWalletTx)

/-- A round : the transaction and its fee, or the fee for the next round. -/
def attempt (nValue : Int64) (a : Attempt) (nFeeRet : Int64) :
    Except CreateError (CWalletTx × Int64 ⊕ Int64) := do
  let vout ← payeeOutputs env.fees vecSend
  let vCoins ← (env.view.availableCoins H hash160 env.isLockedCoin true env.coinControl).mapError
    CreateError.thrown
  let (fSelected, selection) := selectCoins (env.view.isFromMe hash160)
    env.view.bSpendZeroConfChange a.rand (nValue + nFeeRet) env.coinControl vCoins
  if !fSelected then .error (.failed "Insufficient funds")
  let setCoins := a.setOrder selection.setCoinsRet
  let moved := moveToFee env.fees (selection.nValueRet - nValue - nFeeRet) nFeeRet
  let (vout, nFeeRet) ← addChange env a vout moved.1 moved.2
  let vin := setCoins.map fun c => ⟨⟨c.tx.getHash H, .ofNat c.n⟩, [], 0xffffffff⟩
  let tx ← signInputs env.signSignature setCoins
    { wtxNew.toCTransaction with vin := vin, vout := vout }
  if tx.getSerializeSize ≥ MAX_STANDARD_TX_SIZE then .error (.failed "Transaction too large")
  let nFee := requiredFee env a.fAllowFree tx
  if nFeeRet < nFee then return .inr nFee
  return .inl ({ wtxNew with toCTransaction := tx, fFromMe := 1 }, nFeeRet)

/-- The rounds with their fees. -/
def createLoop (nValue : Int64) : ℕ → (ℕ → Attempt) → Int64 →
    Except CreateError (CWalletTx × Int64)
  | 0, _, _ => .error .outOfFuel
  | fuel + 1, attempts, nFeeRet => do
    match ← attempt H hash160 env vecSend wtxNew nValue (attempts 0) nFeeRet with
    | .inl r => return r
    | .inr nFeeRet => createLoop nValue fuel (fun n => attempts (n + 1)) nFeeRet

/-- `CreateTransaction`, with so many rounds at most. -/
def createTransaction (fuel : ℕ) (attempts : ℕ → Attempt) :
    Except CreateError (CWalletTx × Int64) := do
  let nValue ← sumAmounts vecSend
  if vecSend.isEmpty ∨ nValue < 0 then .error (.failed "Transaction amounts must be positive")
  createLoop H hash160 env vecSend wtxNew nValue fuel attempts env.nTransactionFee

end Create

/-! ## What each part does -/

theorem bind_eq_ok {ε α β : Type} {x : Except ε α} {f : α → Except ε β} {b : β}
    (h : x >>= f = .ok b) : ∃ a, x = .ok a ∧ f a = .ok b := by
  cases x with
  | error e => simp [bind, Except.bind] at h
  | ok a => exact ⟨a, rfl, h⟩

namespace WalletView

variable {H : Bytes → UInt256} {hash160 : Bytes → UInt160} {s : WalletView}
  {isLockedCoin : COutPoint → Bool} {fOnlyConfirmed : Bool} {coinControl : Option CCoinControl}

theorem availableOf_ok {wtxid : UInt256} {pcoin : CWalletTx} {vCoins : List COutput}
    (h : s.availableOf H hash160 isLockedCoin fOnlyConfirmed coinControl wtxid pcoin = .ok vCoins) :
    (vCoins.map COutput.toOutRef).Sublist (outRefs pcoin) ∧
      ∀ output ∈ vCoins, output.nValue > 0 := by
  have hnil : ∀ {l : List COutput}, (Except.ok [] : Calc (List COutput)) = .ok l →
      (l.map COutput.toOutRef).Sublist (outRefs pcoin) ∧ ∀ output ∈ l, output.nValue > 0 := by
    rintro l h
    cases h
    exact ⟨List.nil_sublist _, fun _ hmem => absurd hmem List.not_mem_nil⟩
  unfold availableOf at h
  split at h
  · exact hnil h
  obtain ⟨fTrusted, -, h⟩ := bind_eq_ok h
  split at h
  · exact hnil h
  split at h
  · exact hnil h
  dsimp only at h
  split at h
  · exact hnil h
  cases h
  refine ⟨?_, fun output houtput => ?_⟩
  · rw [List.map_map, Function.comp_def, List.map_id']
    exact List.filter_sublist
  · obtain ⟨c, hc, rfl⟩ := List.mem_map.mp houtput
    have hspend := (List.mem_filter.mp hc).2
    unfold spendable at hspend
    simp only [Bool.and_eq_true, decide_eq_true_eq] at hspend
    exact hspend.1.2

theorem availableFrom_ok : ∀ {wallet : List (UInt256 × CWalletTx)} {vCoins : List COutput},
    s.availableFrom H hash160 isLockedCoin fOnlyConfirmed coinControl wallet = .ok vCoins →
    (vCoins.map COutput.toOutRef).Sublist (wallet.flatMap fun e => outRefs e.2) ∧
      ∀ output ∈ vCoins, output.nValue > 0
  | [], _, h => by
    cases h
    exact ⟨List.nil_sublist _, fun _ hmem => absurd hmem List.not_mem_nil⟩
  | (wtxid, pcoin) :: wallet, vCoins, h => by
    rw [availableFrom] at h
    obtain ⟨first, hfirst, h⟩ := bind_eq_ok h
    obtain ⟨rest, hrest, h⟩ := bind_eq_ok h
    cases h
    obtain ⟨hsub, hpos⟩ := availableOf_ok hfirst
    obtain ⟨hsub', hpos'⟩ := availableFrom_ok hrest
    rw [List.map_append, List.flatMap_cons]
    refine ⟨hsub.append hsub', fun output houtput => ?_⟩
    rcases List.mem_append.mp houtput with houtput | houtput
    · exact hpos output houtput
    · exact hpos' output houtput

/-- The coins are different outputs of different transactions of the wallet. -/
theorem availableCoins_ok (hkeyed : s.Keyed H) {vCoins : List COutput}
    (h : s.availableCoins H hash160 isLockedCoin fOnlyConfirmed coinControl = .ok vCoins) :
    (vCoins.map COutput.toOutRef).Nodup ∧ (∀ output ∈ vCoins, output.nValue > 0) ∧
      ∀ output ∈ vCoins, ∃ hash : UInt256, s.wallet.mapWallet[hash]? = some output.tx := by
  obtain ⟨hsub, hpos⟩ := availableFrom_ok h
  have hrefs : ∀ {wtx : CWalletTx} {c : OutRef}, c ∈ outRefs wtx → c.tx = wtx := by
    intro wtx c hc
    obtain ⟨i, -, rfl⟩ := List.mem_map.mp hc
    rfl
  have hget : ∀ e ∈ s.wallet.mapWallet.toList, s.wallet.mapWallet[e.1]? = some e.2 := fun e he =>
    Std.ExtTreeMap.mem_toList_iff_getElem?_eq_some.mp he
  refine ⟨hsub.nodup (Ledger.nodup_flatMap_of ?_ (fun e he => ?_) ?_), hpos,
    fun output houtput => ?_⟩
  · refine s.wallet.mapWallet.distinct_keys_toList.imp ?_
    rintro e e' hne rfl
    exact hne Std.ReflCmp.compare_self
  · refine List.Nodup.map ?_ (List.nodup_finRange _)
    intro i j hij
    simpa using hij
  · intro e he e' he' c hc hc'
    have htx : e.2 = e'.2 := (hrefs hc).symm.trans (hrefs hc')
    have hhash : e.1 = e'.1 := by
      rw [← hkeyed e.1 e.2 (hget e he), ← hkeyed e'.1 e'.2 (hget e' he'), htx]
    exact Prod.ext hhash htx
  · obtain ⟨e, he, hc⟩ := List.mem_flatMap.mp (hsub.subset (List.mem_map_of_mem houtput))
    exact ⟨e.1, by rw [hrefs hc]; exact hget e he⟩

end WalletView

/-- A selection that is returned is of different coins, worth what is said, and reaches the
target. -/
theorem selectCoins_ok {isFromMe : CWalletTx → Bool} {bSpendZeroConfChange : Bool}
    {rand : Fin 3 → SelectionRandom} {nTargetValue : Int64} {coinControl : Option CCoinControl}
    {vCoins : List COutput} {selection : Selection} (hcoins : CoinsFit (vCoins.map COutput.coin))
    (hroom : nTargetValue.toInt + CENT.toInt ≤ Int64.maxValue.toInt)
    (h : selectCoins isFromMe bSpendZeroConfChange rand nTargetValue coinControl vCoins =
      (true, selection)) :
    selection.setCoinsRet.Nodup ∧ selection.setCoinsRet ⊆ vCoins.map COutput.toOutRef ∧
      total (selection.setCoinsRet.map OutRef.nValue) = selection.nValueRet.toInt ∧
      nTargetValue ≤ selection.nValueRet := by
  have hrefs : vCoins.map COutput.toOutRef = (vCoins.map COutput.coin).map Prod.snd := by
    rw [List.map_map]
    rfl
  rw [hrefs]
  have hmin : ∀ (rand : SelectionRandom) (nConfMine nConfTheirs : ℤ),
      selectCoinsMinConf isFromMe rand nTargetValue nConfMine nConfTheirs vCoins =
        (true, selection) →
      selection.setCoinsRet.Nodup ∧
        selection.setCoinsRet ⊆ (vCoins.map COutput.coin).map Prod.snd ∧
        total (selection.setCoinsRet.map OutRef.nValue) = selection.nValueRet.toInt ∧
        nTargetValue ≤ selection.nValueRet := by
    intro rand nConfMine nConfTheirs heq
    have hsub := (eligibleCoins_sublist (COutput.eligible isFromMe nConfMine nConfTheirs)
      vCoins).subperm
    have heligible := hcoins.subperm hsub
    rcases selectCoinsMinConf_cases isFromMe rfl heligible.nonneg heligible.fit
      (le_add_cent hroom) with ⟨selected, hselected, hle, hr⟩ | ⟨-, hr⟩
    · rw [heq] at hr
      cases hr
      obtain ⟨hset, hvalue, -, hworth⟩ := (heligible.subperm hselected).collect
      refine ⟨hset.nodup_iff.mpr (heligible.subperm hselected).nodup, fun x hx => ?_, hworth,
        hvalue ▸ hle⟩
      exact (subperm_map _ (hselected.trans hsub)).subset (hset.mem_iff.mp hx)
    · rw [heq] at hr
      cases hr
  unfold selectCoins at h
  split at h
  · obtain ⟨hset, -, -, hworth⟩ := hcoins.collect
    rw [Prod.mk.injEq, decide_eq_true_eq] at h
    obtain ⟨hreach, rfl⟩ := h
    exact ⟨hset.nodup_iff.mpr hcoins.nodup, fun x hx => hset.mem_iff.mp hx, hworth, hreach⟩
  · dsimp only at h
    split at h
    · exact hmin _ _ _ h
    split at h
    · exact hmin _ _ _ h
    split at h
    · exact hmin _ _ _ h
    · exact hmin _ _ _ h

/-- What is taken from the change is added to the fee. -/
theorem moveToFee_ok (fees : TxFees) (nChange : Int64) {nFeeRet : Int64}
    (hchange : 0 ≤ nChange.toInt) (hfee : 0 ≤ nFeeRet.toInt)
    (hsum : nChange.toInt + nFeeRet.toInt < 2 ^ 63) :
    let moved := moveToFee fees nChange nFeeRet
    moved.1.toInt + moved.2.toInt = nChange.toInt + nFeeRet.toInt ∧ 0 ≤ moved.1.toInt ∧
      nFeeRet.toInt ≤ moved.2.toInt := by
  unfold moveToFee
  dsimp only
  split
  · rename_i hlow
    obtain ⟨hmin, -, -⟩ := hlow
    have hmax := fees.nMinTxFee.toInt_lt
    rw [Int64.lt_iff_toInt_lt] at hmin
    have hroom : (fees.nMinTxFee - nFeeRet).toInt = fees.nMinTxFee.toInt - nFeeRet.toInt :=
      toInt_sub_of_fits ⟨by omega, by omega⟩
    dsimp only
    split
    · rename_i hless
      rw [Int64.lt_iff_toInt_lt, hroom] at hless
      rw [toInt_sub_of_fits (by rw [hroom]; exact ⟨by omega, by omega⟩),
        toInt_add_of_fits (by rw [hroom]; exact ⟨by omega, by omega⟩), hroom]
      omega
    · rw [toInt_sub_of_fits ⟨by omega, by omega⟩, toInt_add_of_fits ⟨by omega, by omega⟩]
      omega
  · dsimp only
    omega

/-- The change becomes an output that is not dust, or is added to the fee. -/
theorem addChange_ok {env : CreateEnv} {a : Attempt} {vout vout' : List CTxOut}
    {nChange nFeeRet nFeeRet' : Int64} (hchange : 0 ≤ nChange.toInt) (hfee : 0 ≤ nFeeRet.toInt)
    (hsum : nChange.toInt + nFeeRet.toInt < 2 ^ 63)
    (h : addChange env a vout nChange nFeeRet = .ok (vout', nFeeRet')) :
    ∃ (n : ℕ) (change : Option CTxOut),
      vout' = vout.take n ++ change.toList ++ vout.drop n ∧
      (∀ txout ∈ change, txout.isDust env.fees.nMinRelayTxFee = false) ∧
      total (change.toList.map CTxOut.nValue) + nFeeRet'.toInt = nChange.toInt + nFeeRet.toInt ∧
      nFeeRet.toInt ≤ nFeeRet'.toInt := by
  unfold addChange at h
  split at h
  · obtain ⟨script, -, h⟩ := bind_eq_ok h
    dsimp only at h
    split at h
    · cases h
      have hadd : (nFeeRet + nChange).toInt = nFeeRet.toInt + nChange.toInt :=
        toInt_add_of_fits ⟨by omega, by omega⟩
      refine ⟨0, none, by simp, nofun, ?_, ?_⟩
      · rw [hadd]
        simp [total, add_comm]
      · omega
    · rename_i hdust
      cases h
      refine ⟨a.position vout.length, some ⟨nChange, script⟩, by simp, ?_, ?_, le_refl _⟩
      · rintro txout htxout
        cases htxout
        simpa using hdust
      · simp [total]
  · rename_i hnot
    cases h
    have hzero : nChange.toInt = 0 := by
      rw [gt_iff_lt, Int64.lt_iff_toInt_lt] at hnot
      have h0 : (0 : Int64).toInt = 0 := rfl
      omega
    refine ⟨0, none, by simp, nofun, ?_, le_refl _⟩
    rw [hzero]
    simp [total]

theorem map_modify {α β : Type} {g : α → β} {f : α → α} (h : ∀ x, g (f x) = g x) (l : List α)
    (i : ℕ) : (l.modify i f).map g = l.map g := by
  ext1 j
  rw [List.getElem?_map, List.getElem?_map, List.getElem?_modify]
  cases l[j]? with
  | none => rfl
  | some x =>
    simp only [Option.map_eq_map, Option.map_some]
    split
    · rw [h]
    · rfl

/-- Signatures change neither the outputs nor what the inputs spend. -/
theorem signInputs_ok {signSignature : CWalletTx → CTransaction → ℕ → Option Bytes}
    {coins : List OutRef} {tx tx' : CTransaction}
    (h : signInputs signSignature coins tx = .ok tx') :
    tx'.vout = tx.vout ∧ tx'.vin.map CTxIn.prevout = tx.vin.map CTxIn.prevout := by
  unfold signInputs at h
  revert h
  generalize coins.zipIdx = cs
  intro h
  induction cs generalizing tx with
  | nil =>
    cases h
    exact ⟨rfl, rfl⟩
  | cons c cs ih =>
    rw [List.foldlM_cons] at h
    obtain ⟨tx₁, hstep, h⟩ := bind_eq_ok h
    obtain ⟨hvout, hvin⟩ := ih h
    split at hstep
    · cases hstep
    · cases hstep
      refine ⟨hvout, hvin.trans (map_modify ?_ _ _)⟩
      exact fun _ => rfl

/-! ## Fees in range -/

/-- The fees of the settings are amounts. -/
structure FeesInRange (env : CreateEnv) : Prop where
  payFee : 0 ≤ env.nTransactionFee.toInt ∧ env.nTransactionFee.toInt ≤ MAX_MONEY
  minFee : 0 ≤ env.fees.nMinTxFee.toInt ∧ env.fees.nMinTxFee.toInt ≤ MAX_MONEY

/-- The greatest fee : that of the greatest size. -/
def maxFee : ℤ := 100 * MAX_MONEY

theorem moneyRange_clamp (nFee : Int64) :
    (if !moneyRange nFee then Int64.ofInt MAX_MONEY else nFee).toInt ≤ MAX_MONEY := by
  have hmax : (Int64.ofInt MAX_MONEY).toInt = MAX_MONEY := by decide
  cases hrange : moneyRange nFee with
  | false => exact hmax.le
  | true => exact (of_decide_eq_true hrange).2

theorem getMinFee_le (fees : TxFees) (tx : CTransaction) (nBytes : UInt32) (fAllowFree : Bool)
    (mode : GetMinFeeMode) : (getMinFee fees tx nBytes fAllowFree mode).toInt ≤ MAX_MONEY :=
  moneyRange_clamp _

/-- The fee for a size is not wrapped. -/
theorem payFee_eq {nTransactionFee : Int64} (hfee : 0 ≤ nTransactionFee.toInt)
    (hmax : nTransactionFee.toInt ≤ MAX_MONEY) {nBytes : UInt32}
    (hsize : nBytes < MAX_STANDARD_TX_SIZE) :
    (nTransactionFee * (1 + Int64.ofNat nBytes.toNat / 1000)).toInt =
        nTransactionFee.toInt * (1 + nBytes.toNat / 1000 : ℕ) ∧
      nTransactionFee.toInt * (1 + nBytes.toNat / 1000 : ℕ) ≤ maxFee := by
  have hlt : nBytes.toNat < 100000 := UInt32.lt_iff_toNat_lt.mp hsize
  have hMAX : MAX_MONEY = 2880000000000000 := by decide
  have hn : (Int64.ofNat nBytes.toNat).toInt = nBytes.toNat :=
    Int64.toInt_ofNat_of_lt (by omega)
  have hdiv : (Int64.ofNat nBytes.toNat / 1000).toInt = (nBytes.toNat / 1000 : ℕ) := by
    have h1000 : (1000 : Int64).toInt = 1000 := by decide
    rw [Int64.toInt_div, hn, h1000, Int.tdiv_eq_ediv_of_nonneg (by omega)]
    exact bmod_of_fits ⟨by omega, by omega⟩
  have hone : (1 + Int64.ofNat nBytes.toNat / 1000).toInt = (1 + nBytes.toNat / 1000 : ℕ) := by
    have h1 : (1 : Int64).toInt = 1 := by decide
    rw [toInt_add_of_fits (by rw [hdiv, h1]; exact ⟨by omega, by omega⟩), hdiv, h1]
    rfl
  have hle : nTransactionFee.toInt * (1 + nBytes.toNat / 1000 : ℕ) ≤ maxFee := by
    rw [maxFee, mul_comm]
    exact mul_le_mul (by exact_mod_cast (by omega : 1 + nBytes.toNat / 1000 ≤ 100)) hmax hfee
      (by decide)
  refine ⟨?_, hle⟩
  have hnonneg : 0 ≤ nTransactionFee.toInt * (1 + nBytes.toNat / 1000 : ℕ) :=
    mul_nonneg hfee (Int.natCast_nonneg _)
  rw [maxFee, hMAX] at hle
  rw [toInt_mul_of_fits (by rw [hone]; exact ⟨by omega, by omega⟩), hone]

/-- The fee that is required is at least both, and bounded. -/
theorem requiredFee_spec {env : CreateEnv} (hfees : FeesInRange env) (fAllowFree : Bool)
    {tx : CTransaction} (hsize : tx.getSerializeSize < MAX_STANDARD_TX_SIZE) :
    env.nTransactionFee.toInt * (1 + tx.getSerializeSize.toNat / 1000 : ℕ) ≤
        (requiredFee env fAllowFree tx).toInt ∧
      (getMinFee env.fees tx tx.getSerializeSize fAllowFree .send).toInt ≤
        (requiredFee env fAllowFree tx).toInt ∧
      (requiredFee env fAllowFree tx).toInt ≤ maxFee := by
  obtain ⟨hpay, hle⟩ := payFee_eq hfees.payFee.1 hfees.payFee.2 hsize
  have hmin := getMinFee_le env.fees tx tx.getSerializeSize fAllowFree .send
  have hMAX : MAX_MONEY ≤ maxFee := by decide
  unfold requiredFee
  dsimp only
  split
  · rename_i hless
    rw [Int64.lt_iff_toInt_lt, hpay] at hless
    exact ⟨hless.le, le_refl _, hmin.trans hMAX⟩
  · rename_i hless
    rw [Int64.lt_iff_toInt_lt, hpay, not_lt] at hless
    rw [hpay]
    exact ⟨le_refl _, hless, hle⟩

/-- The sum of the amounts of the payees. -/
theorem sumAmounts_ok {vecSend : List (Bytes × Int64)} {nValue : Int64}
    (h : sumAmounts vecSend = .ok nValue) : nValue = (vecSend.map Prod.snd).sum := by
  have hfrom : ∀ (l : List (Bytes × Int64)) (n : Int64),
      l.foldlM (fun nValue s =>
        if nValue < 0 then Except.error (CreateError.failed "Transaction amounts must be positive")
        else Except.ok (nValue + s.2)) n = .ok nValue →
      nValue = n + (l.map Prod.snd).sum := by
    intro l
    induction l with
    | nil =>
      intro n hn
      cases hn
      exact (Int64.add_zero _).symm
    | cons s l ih =>
      intro n hn
      rw [List.foldlM_cons] at hn
      obtain ⟨m, hstep, hn⟩ := bind_eq_ok hn
      split at hstep
      · cases hstep
      · cases hstep
        rw [ih _ hn, List.map_cons, List.sum_cons, Int64.add_assoc]
  exact (hfrom vecSend 0 h).trans (Int64.zero_add _)

theorem bind_ne_outOfFuel {α β : Type} {x : Except CreateError α} {f : α → Except CreateError β}
    (hx : x ≠ .error .outOfFuel) (hf : ∀ a, f a ≠ .error .outOfFuel) :
    x >>= f ≠ .error .outOfFuel := by
  cases x with
  | error e =>
    intro heq
    cases heq
    exact hx rfl
  | ok a => exact hf a

theorem sumAmounts_ne_outOfFuel {vecSend : List (Bytes × Int64)} :
    sumAmounts vecSend ≠ .error .outOfFuel := by
  have hfrom : ∀ (l : List (Bytes × Int64)) (n : Int64),
      l.foldlM (fun nValue s =>
        if nValue < 0 then Except.error (CreateError.failed "Transaction amounts must be positive")
        else Except.ok (nValue + s.2)) n ≠ .error .outOfFuel := by
    intro l
    induction l with
    | nil => exact fun n => nofun
    | cons s l ih =>
      intro n
      rw [List.foldlM_cons]
      refine bind_ne_outOfFuel ?_ fun m => ih m
      split <;> exact nofun
  exact hfrom vecSend 0

/-! ## One round -/

section Round

variable {H : Bytes → UInt256} {hash160 : Bytes → UInt160} {env : CreateEnv}
  {vecSend : List (Bytes × Int64)} {wtxNew : CWalletTx} {nValue nFeeRet : Int64} {a : Attempt}

/-- The outputs to the payees. -/
def payees (vecSend : List (Bytes × Int64)) : List CTxOut := vecSend.map fun s => ⟨s.2, s.1⟩

/-- The inputs that spend coins. -/
def spends (H : Bytes → UInt256) (coins : List OutRef) : List COutPoint :=
  coins.map fun c => ⟨c.tx.getHash H, .ofNat c.n⟩

theorem mapError_ok {ε ε' α : Type} {f : ε → ε'} {x : Except ε α} {a : α}
    (h : x.mapError f = .ok a) : x = .ok a := by
  cases x with
  | error e => cases h
  | ok b =>
    cases h
    rfl

/-- The steps of a round that has a result. -/
theorem attempt_ok {r : CWalletTx × Int64 ⊕ Int64}
    (h : attempt H hash160 env vecSend wtxNew nValue a nFeeRet = .ok r) :
    ∃ vCoins selection vout nFeeRet' tx,
      env.view.availableCoins H hash160 env.isLockedCoin true env.coinControl = .ok vCoins ∧
      selectCoins (env.view.isFromMe hash160) env.view.bSpendZeroConfChange a.rand
        (nValue + nFeeRet) env.coinControl vCoins = (true, selection) ∧
      addChange env a (payees vecSend)
        (moveToFee env.fees (selection.nValueRet - nValue - nFeeRet) nFeeRet).1
        (moveToFee env.fees (selection.nValueRet - nValue - nFeeRet) nFeeRet).2 =
          .ok (vout, nFeeRet') ∧
      tx.vout = vout ∧
      tx.vin.map CTxIn.prevout = spends H (a.setOrder selection.setCoinsRet) ∧
      tx.getSerializeSize < MAX_STANDARD_TX_SIZE ∧
      ((nFeeRet' < requiredFee env a.fAllowFree tx ∧ r = .inr (requiredFee env a.fAllowFree tx)) ∨
        (¬nFeeRet' < requiredFee env a.fAllowFree tx ∧
          r = .inl ({ wtxNew with toCTransaction := tx, fFromMe := 1 }, nFeeRet'))) := by
  unfold attempt at h
  obtain ⟨vout, hvout, h⟩ := bind_eq_ok h
  obtain ⟨vCoins, hcoins, h⟩ := bind_eq_ok h
  have hpayees : vout = payees vecSend := by
    unfold payeeOutputs at hvout
    dsimp only at hvout
    split at hvout
    · cases hvout
    · cases hvout
      rfl
  subst hpayees
  cases hselect : selectCoins (env.view.isFromMe hash160) env.view.bSpendZeroConfChange a.rand
    (nValue + nFeeRet) env.coinControl vCoins with
  | mk fSelected selection =>
    rw [hselect] at h
    cases fSelected with
    | false => cases h
    | true =>
      obtain ⟨⟨vout, nFeeRet'⟩, hchange, h⟩ := bind_eq_ok h
      obtain ⟨tx, hsign, h⟩ := bind_eq_ok h
      obtain ⟨htxout, htxin⟩ := signInputs_ok hsign
      dsimp only at h
      split at h
      · cases h
      · rename_i hsize
        rw [ge_iff_le, UInt32.not_le] at hsize
        refine ⟨vCoins, selection, vout, nFeeRet', tx, mapError_ok hcoins, hselect, hchange, htxout,
          ?_, hsize, ?_⟩
        · rw [htxin, List.map_map]
          rfl
        · split at h
          · rename_i hlow
            cases h
            exact .inl ⟨hlow, rfl⟩
          · rename_i henough
            cases h
            exact .inr ⟨henough, rfl⟩

variable (H hash160 env vecSend) in
/-- The payees get amounts, and the coins of the wallet are worth an amount. -/
structure AmountsInRange : Prop where
  send : ∀ s ∈ vecSend, 0 ≤ s.2.toInt
  sum : total (vecSend.map Prod.snd) ≤ MAX_MONEY
  coins : ∀ vCoins,
    env.view.availableCoins H hash160 env.isLockedCoin true env.coinControl = .ok vCoins →
    total (vCoins.map fun output => output.nValue) ≤ MAX_MONEY

/-- A transaction that pays the payees out of coins of the wallet, with at most a change beside them
that is not dust, and with a fee that makes up the difference and is enough for the size. -/
structure Balanced (H : Bytes → UInt256) (env : CreateEnv) (vecSend : List (Bytes × Int64))
    (wtx : CWalletTx) (nFeeRet : Int64) (coins : List OutRef) (change : Option CTxOut)
    (fAllowFree : Bool) : Prop where
  inputs : wtx.vin.map CTxIn.prevout = spends H coins
  distinct : coins.Nodup
  owned : ∀ c ∈ coins, ∃ hash : UInt256, env.view.wallet.mapWallet[hash]? = some c.tx
  outputs : ∃ n, wtx.vout =
    (payees vecSend).take n ++ change.toList ++ (payees vecSend).drop n
  notDust : ∀ txout ∈ change, txout.isDust env.fees.nMinRelayTxFee = false
  balance : total (coins.map OutRef.nValue) = total (wtx.vout.map CTxOut.nValue) + nFeeRet.toInt
  payFee : env.nTransactionFee.toInt * (1 + wtx.getSerializeSize.toNat / 1000 : ℕ) ≤
    nFeeRet.toInt
  minFee : (getMinFee env.fees wtx.toCTransaction wtx.getSerializeSize fAllowFree .send).toInt ≤
    nFeeRet.toInt

section Amounts

variable (hkeyed : env.view.Keyed H) (hfees : FeesInRange env)
  (hamounts : AmountsInRange H hash160 env vecSend)
include hkeyed hfees hamounts

/-- A round ends with a transaction that balances, or with a higher fee, which is bounded. -/
theorem attempt_spec {r : CWalletTx × Int64 ⊕ Int64} (hvalue : sumAmounts vecSend = .ok nValue)
    (hfee : 0 ≤ nFeeRet.toInt) (hmax : nFeeRet.toInt ≤ maxFee)
    (h : attempt H hash160 env vecSend wtxNew nValue a nFeeRet = .ok r) :
    (∃ f, r = .inr f ∧ nFeeRet.toInt < f.toInt ∧ f.toInt ≤ maxFee) ∨
      ∃ wtx f coins change, r = .inl (wtx, f) ∧
        Balanced H env vecSend wtx f coins change a.fAllowFree := by
  have hMAX : MAX_MONEY = 2880000000000000 := by decide
  have hMAXFEE : maxFee = 288000000000000000 := by decide
  have hCENT : CENT.toInt = 1000000 := by decide
  have hINT : Int64.maxValue.toInt = 2 ^ 63 - 1 := by decide
  obtain ⟨vCoins, selection, vout, f, tx, hcoins, hselect, hchange, htxout, htxin, hsize, hr⟩ :=
    attempt_ok h
  -- the amounts asked for
  have hsend : ∀ x ∈ vecSend.map Prod.snd, 0 ≤ x.toInt := by
    intro x hx
    obtain ⟨s, hs, rfl⟩ := List.mem_map.mp hx
    exact hamounts.send s hs
  have hsum := hamounts.sum
  have hsum0 := total_nonneg hsend
  have hnValue : nValue.toInt = total (vecSend.map Prod.snd) := by
    rw [sumAmounts_ok hvalue]
    exact toInt_sum hsend (by omega)
  have htarget : (nValue + nFeeRet).toInt = nValue.toInt + nFeeRet.toInt :=
    toInt_add_of_fits ⟨by omega, by omega⟩
  -- the coins that are selected
  obtain ⟨hdistinct, hpos, howned⟩ := WalletView.availableCoins_ok hkeyed hcoins
  have hfit : CoinsFit (vCoins.map COutput.coin) := by
    refine CoinsFit.of_outputs hdistinct (fun output houtput => ?_) ?_
    · exact Int64.le_iff_toInt_le.mp (Int64.le_of_lt (hpos output houtput))
    · have hle := hamounts.coins vCoins hcoins
      omega
  obtain ⟨hnodup, hsub, hworth, hreach⟩ := selectCoins_ok hfit (by omega) hselect
  rw [Int64.le_iff_toInt_le, htarget] at hreach
  have hret := selection.nValueRet.toInt_lt
  have hsub1 : (selection.nValueRet - nValue).toInt = selection.nValueRet.toInt - nValue.toInt :=
    toInt_sub_of_fits ⟨by omega, by omega⟩
  have hnChange : (selection.nValueRet - nValue - nFeeRet).toInt =
      selection.nValueRet.toInt - nValue.toInt - nFeeRet.toInt := by
    rw [toInt_sub_of_fits (by rw [hsub1]; exact ⟨by omega, by omega⟩), hsub1]
  -- the change and the fee together are the rest
  obtain ⟨hmoved, hmoved0, hmovedfee⟩ := moveToFee_ok env.fees
    (selection.nValueRet - nValue - nFeeRet) (by omega) hfee (by omega)
  obtain ⟨n, change, hvout, hdust, hrest, hlefee⟩ := addChange_ok hmoved0 (by omega) (by omega)
    hchange
  obtain ⟨hpay, hmin, hle⟩ := requiredFee_spec hfees a.fAllowFree hsize
  rcases hr with ⟨hlow, rfl⟩ | ⟨henough, rfl⟩
  · rw [Int64.lt_iff_toInt_lt] at hlow
    exact .inl ⟨_, rfl, by omega, hle⟩
  · rw [Int64.lt_iff_toInt_lt, not_lt] at henough
    have hperm := a.setOrder_perm selection.setCoinsRet
    refine .inr ⟨_, _, a.setOrder selection.setCoinsRet, change, rfl, htxin,
      hperm.nodup_iff.mpr hnodup, fun c hc => ?_, ⟨n, htxout.trans hvout⟩, hdust, ?_,
      hpay.trans henough, hmin.trans henough⟩
    · obtain ⟨output, houtput, rfl⟩ := List.mem_map.mp (hsub (hperm.mem_iff.mp hc))
      exact howned output houtput
    · have hpayees : (payees vecSend).map CTxOut.nValue = vecSend.map Prod.snd := by
        rw [payees, List.map_map]
        rfl
      have htotal : total ((payees vecSend).map CTxOut.nValue) =
          total (((payees vecSend).take n).map CTxOut.nValue) +
            total (((payees vecSend).drop n).map CTxOut.nValue) := by
        rw [← total_append, ← List.map_append, List.take_append_drop]
      have hwtx : ({ wtxNew with toCTransaction := tx, fFromMe := 1 } : CWalletTx).vout = vout :=
        htxout
      rw [total_perm (hperm.map _), hworth, hwtx, hvout, List.map_append, List.map_append,
        total_append, total_append]
      rw [hpayees] at htotal
      omega

omit hkeyed hfees hamounts in
/-- Only the loop runs out of rounds. -/
theorem attempt_ne_outOfFuel :
    attempt H hash160 env vecSend wtxNew nValue a nFeeRet ≠ .error .outOfFuel := by
  have hsign : ∀ (cs : List (OutRef × ℕ)) (tx : CTransaction), (cs.foldlM (fun tx c =>
      match env.signSignature c.1.tx tx c.2 with
      | none => .error (.failed "Signing transaction failed")
      | some scriptSig => .ok { tx with
          vin := tx.vin.modify c.2 fun txin => { txin with scriptSig := scriptSig } }) tx :
      Except CreateError CTransaction) ≠ .error .outOfFuel := by
    intro cs
    induction cs with
    | nil => exact fun tx => nofun
    | cons c cs ih =>
      intro tx
      rw [List.foldlM_cons]
      refine bind_ne_outOfFuel ?_ fun tx' => ih tx'
      split <;> exact nofun
  unfold attempt
  refine bind_ne_outOfFuel ?_ fun vout => bind_ne_outOfFuel ?_ fun vCoins => ?_
  · unfold payeeOutputs
    dsimp only
    split <;> exact nofun
  · cases env.view.availableCoins H hash160 env.isLockedCoin true env.coinControl <;> exact nofun
  dsimp only
  split
  · exact nofun
  refine bind_ne_outOfFuel ?_ fun changed => bind_ne_outOfFuel (hsign _ _) fun tx => ?_
  · unfold addChange
    split
    · refine bind_ne_outOfFuel ?_ fun script => ?_
      · unfold scriptChange
        split
        · split <;> exact nofun
        · split <;> exact nofun
        · exact nofun
      · dsimp only
        split <;> exact nofun
    · exact nofun
  · split
    · exact nofun
    · split <;> exact nofun

/-- The rounds end while the fee can go up, with a transaction that balances. -/
theorem createLoop_spec (hvalue : sumAmounts vecSend = .ok nValue) :
    ∀ (fuel : ℕ) (attempts : ℕ → Attempt) (nFeeRet : Int64), 0 ≤ nFeeRet.toInt →
      nFeeRet.toInt ≤ maxFee →
      (maxFee - nFeeRet.toInt < fuel →
        createLoop H hash160 env vecSend wtxNew nValue fuel attempts nFeeRet ≠
          .error .outOfFuel) ∧
      ∀ wtx f, createLoop H hash160 env vecSend wtxNew nValue fuel attempts nFeeRet =
        .ok (wtx, f) → ∃ coins change k,
          Balanced H env vecSend wtx f coins change (attempts k).fAllowFree
  | 0, _, _, _, hmax => ⟨fun hfuel => by omega, nofun⟩
  | fuel + 1, attempts, nFeeRet, hfee, hmax => by
    rw [createLoop]
    cases hround : attempt H hash160 env vecSend wtxNew nValue (attempts 0) nFeeRet with
    | error e =>
      refine ⟨fun _ heq => ?_, fun wtx f heq => ?_⟩
      · cases heq
        exact attempt_ne_outOfFuel hround
      · cases heq
    | ok r =>
      rcases attempt_spec hkeyed hfees hamounts hvalue hfee hmax hround with
        ⟨f, rfl, hless, hle⟩ | ⟨wtx, f, coins, change, rfl, hbalanced⟩
      · obtain ⟨hends, hbalance⟩ := createLoop_spec hvalue fuel (fun n => attempts (n + 1)) f
          (by omega) hle
        refine ⟨fun hfuel => hends (by omega), fun wtx' f' heq => ?_⟩
        obtain ⟨coins, change, k, hbalanced⟩ := hbalance wtx' f' heq
        exact ⟨coins, change, k + 1, hbalanced⟩
      · refine ⟨fun _ => nofun, fun wtx' f' heq => ?_⟩
        cases heq
        exact ⟨coins, change, 0, hbalanced⟩

end Amounts

/-- Different coins of the wallet are different outpoints. -/
theorem nodup_spends (hkeyed : env.view.Keyed H)
    (hsize : ∀ (hash : UInt256) (wtx : CWalletTx),
      env.view.wallet.mapWallet[hash]? = some wtx → wtx.vout.length ≤ 2 ^ 32)
    {coins : List OutRef} (hnodup : coins.Nodup)
    (howned : ∀ c ∈ coins, ∃ hash : UInt256, env.view.wallet.mapWallet[hash]? = some c.tx) :
    (spends H coins).Nodup := by
  refine hnodup.map_on fun c hc c' hc' heq => ?_
  obtain ⟨hash, hget⟩ := howned c hc
  obtain ⟨hash', hget'⟩ := howned c' hc'
  obtain ⟨tx, n⟩ := c
  obtain ⟨tx', n'⟩ := c'
  rw [COutPoint.mk.injEq] at heq
  obtain ⟨hhash, hn⟩ := heq
  have hkey := hkeyed _ _ hget
  have hkey' := hkeyed _ _ hget'
  have htx : tx = tx' := by
    rw [← hkey, hhash, hkey', hget'] at hget
    exact (Option.some.inj hget).symm
  subst htx
  have hlen := hsize _ _ hget
  dsimp only at hn hlen
  have hlt := n.isLt
  have hlt' := n'.isLt
  rw [← UInt32.toNat_inj, UInt32.toNat_ofNat', UInt32.toNat_ofNat', Nat.mod_eq_of_lt (by omega),
    Nat.mod_eq_of_lt (by omega)] at hn
  rw [Fin.ext hn]

end Round

/-- A wallet without transactions, and no fees. -/
def emptyWallet : CreateEnv where
  view := {
    wallet := { fFileBacked := false }
    keystore := ⟨fun _ => false, ∅⟩
    mapAddressBook := fun _ => none
    fMerkleVerified := fun _ => false
    bSpendZeroConfChange := true
    mapBlockIndex := ∅
    tip := none
    mempoolExists := fun _ => false
    nAdjustedTime := 0 }
  isLockedCoin := fun _ => false
  coinControl := none
  nTransactionFee := 0
  fees := ⟨0, 0⟩
  signSignature := fun _ _ _ => none

def plainAttempt : Attempt where
  rand := fun _ => noRandom
  setOrder := id
  setOrder_perm := fun _ => List.Perm.refl _
  reservedKey := none
  position := fun _ => 0
  fAllowFree := true

end Ticoin
