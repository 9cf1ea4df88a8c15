import Ticoin.Destinations
import Ticoin.Validation
import Ticoin.WalletSpends

/-!
# wallet.cpp : depths, amounts and trust of the wallet's transactions

What the wallet says of a transaction depends on the block index, the active chain, the
memory pool and its own transactions and keys (`WalletView`). `GetDepthInMainChain` counts
from the block on the active chain that the transaction is in (`findBlock`). `GetDebit`,
`GetCredit` and `GetAmounts` sum up what is spent and received, and `IsTrusted` decides which
transactions count in a balance. The cached sums are left out : every sum is computed.
-/

namespace Ticoin

open Codec

/-- Why a computation has no result : it throws, or reads an output that is not there. -/
inductive Fault where
  | runtimeError (what : String)
  | undefined
  deriving DecidableEq, Repr

abbrev Calc := Except Fault

/-- What a query of the wallet reads. -/
structure WalletView where
  wallet : CWallet
  keystore : KeyStore
  /-- the name of an address in `mapAddressBook` -/
  mapAddressBook : CTxDestination → Option Bytes
  /-- whether the Merkle branch of a transaction was verified before -/
  fMerkleVerified : UInt256 → Bool
  bSpendZeroConfChange : Bool
  mapBlockIndex : Std.ExtTreeMap UInt256 CBlockIndex
  /-- the tip of the active chain -/
  tip : Option CBlockIndex
  /-- `mempool.exists` -/
  mempoolExists : UInt256 → Bool
  nAdjustedTime : ℤ

namespace WalletView

variable (H : Bytes → UInt256) (hash160 : Bytes → UInt160) (s : WalletView)

def chainActive : CChain := ⟨CChain.pathOf s.tip⟩

/-! ## Depth -/

/-- The loop of `CheckMerkleBranch`. -/
def foldBranch : List UInt256 → ℤ → UInt256 → UInt256
  | [], _, hash => hash
  | otherside :: vMerkleBranch, nIndex, hash =>
    foldBranch vMerkleBranch (nIndex / 2)
      (if nIndex % 2 = 1 then hash2 H otherside hash else hash2 H hash otherside)

/-- `CBlock::CheckMerkleBranch`. -/
def checkMerkleBranch (hash : UInt256) (vMerkleBranch : List UInt256) (nIndex : ℤ) : UInt256 :=
  if nIndex = -1 then 0 else foldBranch H vMerkleBranch nIndex hash

/-- The block on the active chain that a transaction is in, as `GetDepthInMainChainINTERNAL`
finds it. -/
def findBlock (wtx : CWalletTx) : Option CBlockIndex :=
  if wtx.hashBlock = 0 ∨ wtx.nIndex = -1 then none
  else
    match s.mapBlockIndex[wtx.hashBlock]? with
    | none => none
    | some pindex =>
      if !s.chainActive.contains pindex then none
      -- make sure the merkle branch connects to this block
      else if !s.fMerkleVerified (wtx.getHash H) ∧
          checkMerkleBranch H (wtx.getHash H) wtx.vMerkleBranch wtx.nIndex ≠
            pindex.entry.hashMerkleRoot then none
      else some pindex

/-- `GetDepthInMainChain`. -/
def getDepthInMainChain (wtx : CWalletTx) : ℤ :=
  let nResult := match s.findBlock H wtx with
    | none => 0
    | some pindex => s.chainActive.height - pindex.nHeight + 1
  -- not in chain, not in mempool
  if nResult = 0 ∧ !s.mempoolExists (wtx.getHash H) then -1 else nResult

def getBlocksToMaturity (wtx : CWalletTx) : ℤ :=
  if !wtx.isCoinBase then 0 else max 0 (COINBASE_MATURITY + 1 - s.getDepthInMainChain H wtx)

/-! ## Debit and credit -/

/-- `IsMine` of an output. -/
def isMineOut (txout : CTxOut) : Bool := isMine hash160 s.keystore txout.scriptPubKey

/-- The output of a wallet transaction that an input spends. -/
def prevOut (txin : CTxIn) : Option CTxOut :=
  s.wallet.mapWallet[txin.prevout.hash]?.bind fun prev => prev.vout[txin.prevout.n.toNat]?

/-- `CWallet::GetDebit` of an input. -/
def debitOf (txin : CTxIn) : ℤ :=
  match s.prevOut txin with
  | none => 0
  | some txout => if s.isMineOut hash160 txout then txout.nValue.toInt else 0

/-- One step of a sum that has to stay in range. -/
def addInRange (what : String) (nSum nValue : ℤ) : Calc ℤ :=
  if MoneyRange (nSum + nValue) then .ok (nSum + nValue) else .error (.runtimeError what)

/-- `CWallet::GetDebit` of a transaction. -/
def getDebit (tx : CTransaction) : Calc ℤ :=
  tx.vin.foldlM (fun nDebit txin =>
    addInRange "CWallet::GetDebit() : value out of range" nDebit (s.debitOf hash160 txin)) 0

/-- `CWallet::GetCredit` of an output. -/
def getCreditOut (txout : CTxOut) : Calc ℤ :=
  if ¬MoneyRange txout.nValue.toInt then
    .error (.runtimeError "CWallet::GetCredit() : value out of range")
  else .ok (if s.isMineOut hash160 txout then txout.nValue.toInt else 0)

/-- `IsChange` : an output to an address that is mine but is not in the address book. -/
def isChange (txout : CTxOut) : Bool :=
  match extractDestination hash160 txout.scriptPubKey with
  | none => false
  | some address => isMineDestination s.keystore address && (s.mapAddressBook address).isNone

/-- `IsSpent`. -/
def isSpent (hash : UInt256) (n : UInt32) : Bool :=
  s.wallet.isSpent (s.getDepthInMainChain H) hash n

/-- One output in the loop of `GetAvailableCredit`. -/
def addAvailable (hashTx : UInt256) (nCredit : ℤ) (out : CTxOut × ℕ) : Calc ℤ :=
  if s.isSpent H hashTx (.ofNat out.2) then .ok nCredit
  else do
    let n ← s.getCreditOut hash160 out.1
    addInRange "CWalletTx::GetAvailableCredit() : value out of range" nCredit n

/-- `GetAvailableCredit` without the cache. -/
def getAvailableCredit (wtx : CWalletTx) : Calc ℤ :=
  -- must wait until coinbase is safely deep enough in the chain before valuing it
  if wtx.isCoinBase ∧ s.getBlocksToMaturity H wtx > 0 then .ok 0
  else wtx.vout.zipIdx.foldlM (s.addAvailable H hash160 (wtx.getHash H)) 0

/-! ## Trust -/

/-- The loop of `IsTrusted` over the inputs. -/
def inputsTrusted : List CTxIn → Calc Bool
  | [] => .ok true
  | txin :: vin =>
    match s.wallet.mapWallet[txin.prevout.hash]? with
    | none => .ok false
    | some parent =>
      match parent.vout[txin.prevout.n.toNat]? with
      | none => .error .undefined
      | some parentOut => if !s.isMineOut hash160 parentOut then .ok false else inputsTrusted vin

/-- `IsTrusted`. -/
def isTrusted (wtx : CWalletTx) : Calc Bool :=
  if !isFinalTx s.chainActive.height s.nAdjustedTime wtx.toCTransaction 0 0 then .ok false
  else
    let nDepth := s.getDepthInMainChain H wtx
    if nDepth ≥ 1 then .ok true
    else if nDepth < 0 then .ok false
    else if !s.bSpendZeroConfChange then .ok false
    else do
      let nDebit ← s.getDebit hash160 wtx.toCTransaction
      if ¬nDebit > 0 then .ok false
      -- trusted if all inputs are from us
      else s.inputsTrusted hash160 wtx.vin

/-! ## GetAmounts -/

structure Amounts where
  listReceived : List (CTxDestination × ℤ)
  listSent : List (CTxDestination × ℤ)
  nFee : ℤ
  strSentAccount : Bytes
  deriving DecidableEq

/-- One output in the loop of `GetAmounts`. -/
def addAmount (nDebit : ℤ) (amounts : Amounts) (txout : CTxOut) : Amounts :=
  if nDebit > 0 ∧ s.isChange hash160 txout then amounts
  else
    let fIsMine := s.isMineOut hash160 txout
    if ¬nDebit > 0 ∧ !fIsMine then amounts
    else
      let address := (extractDestination hash160 txout.scriptPubKey).getD .noDestination
      { amounts with
        -- if we are debited by the transaction, add the output as a "sent" entry
        listSent := if nDebit > 0 then amounts.listSent ++ [(address, txout.nValue.toInt)]
          else amounts.listSent
        listReceived := if fIsMine then amounts.listReceived ++ [(address, txout.nValue.toInt)]
          else amounts.listReceived }

/-- `GetAmounts`. -/
def getAmounts (wtx : CWalletTx) : Calc Amounts := do
  let nDebit ← s.getDebit hash160 wtx.toCTransaction
  -- debit > 0 means we signed this transaction
  let nFee ← if nDebit > 0 then
      (wtx.getValueOut.mapError Fault.runtimeError).map fun nValueOut => nDebit - nValueOut
    else .ok 0
  return wtx.vout.foldl (s.addAmount hash160 nDebit) ⟨[], [], nFee, wtx.strFromAccount⟩

/-! ## Depths and heights -/

variable {H s} {wtx : CWalletTx} {X : CBlockIndex}

theorem chainActive_isPath (s : WalletView) : s.chainActive.IsPath s.tip := rfl

theorem height_of_tip {t : CBlockIndex} (h : s.tip = some t) : s.chainActive.height = t.nHeight :=
  (h ▸ s.chainActive_isPath : s.chainActive.IsPath (some t)).height_eq

/-- The block that a transaction is found in is on the active chain. -/
theorem mem_of_findBlock (h : s.findBlock H wtx = some X) :
    ∃ t, s.tip = some t ∧ X ∈ t.path := by
  rw [findBlock] at h
  split at h
  · cases h
  split at h
  · cases h
  split at h
  · cases h
  · rename_i hcontains
    split at h
    · cases h
    · cases h
      rw [Bool.not_eq_true, Bool.not_eq_false'] at hcontains
      exact s.chainActive_isPath.contains_iff.mp hcontains

theorem nHeight_le_of_findBlock (h : s.findBlock H wtx = some X) :
    (X.nHeight : ℤ) ≤ s.chainActive.height := by
  obtain ⟨t, htip, hmem⟩ := mem_of_findBlock h
  rw [height_of_tip htip]
  exact_mod_cast CBlockIndex.nHeight_le_of_mem hmem

theorem getDepthInMainChain_of_found (h : s.findBlock H wtx = some X) :
    s.getDepthInMainChain H wtx = s.chainActive.height - X.nHeight + 1 := by
  have hle := nHeight_le_of_findBlock h
  simp only [getDepthInMainChain, h]
  rw [if_neg]
  rintro ⟨h0, -⟩
  change s.chainActive.height - X.nHeight + 1 = 0 at h0
  omega

theorem getDepthInMainChain_of_notFound (h : s.findBlock H wtx = none) :
    s.getDepthInMainChain H wtx = if s.mempoolExists (wtx.getHash H) then 0 else -1 := by
  simp only [getDepthInMainChain, h]
  cases s.mempoolExists (wtx.getHash H) <;> rfl

end WalletView

end Ticoin
