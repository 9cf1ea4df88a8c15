import Ticoin.Core
import Ticoin.Lib.Machine

/-!
# wallet.cpp : the wallet's transactions and the outpoints they spend

`mapTxSpends` has for an outpoint the wallet transactions that spend it. `AddToWallet` adds to
it, and copies metadata between the transactions that share an outpoint (`SyncMetaData`).
`EraseFromWallet` takes a transaction out of `mapWallet` and leaves its outpoints in
`mapTxSpends`.

`SpendIndex` says that `mapTxSpends` tells what the wallet's transactions spend. A call keeps it
if and only if it does not take away from `mapWallet` a transaction that spends (`WalletCall.Keeps`,
`WalletCall.exec_spec`), and so it holds after runs of such calls (`spendIndex_of_run`). After
others, `mapWallet[hash]` makes an empty transaction for an outpoint that is left
(`eraseFromWallet_stale`).
-/

namespace Ticoin

open Codec

/-! ## Wallet transactions -/

/-- A transaction with what only its owner cares about, less the pointers and cached amounts. -/
structure CWalletTx extends CTransaction where
  hashBlock : UInt256
  vMerkleBranch : List UInt256
  nIndex : ℤ
  /-- a map, by its entries -/
  mapValue : List (Bytes × Bytes)
  vOrderForm : List (Bytes × Bytes)
  /-- time received by this node -/
  nTimeReceived : UInt32
  nTimeSmart : UInt32
  fFromMe : UInt8
  strFromAccount : Bytes
  /-- position in ordered transaction list -/
  nOrderPos : ℤ
  fDebitCached : Bool
  fCreditCached : Bool
  fAvailableCreditCached : Bool
  fChangeCached : Bool
  deriving DecidableEq, Repr

/-- `CWalletTx()`. -/
def CWalletTx.init : CWalletTx where
  nVersion := 1
  vin := []
  vout := []
  nLockTime := 0
  hashBlock := 0
  vMerkleBranch := []
  nIndex := -1
  mapValue := []
  vOrderForm := []
  nTimeReceived := 0
  nTimeSmart := 0
  fFromMe := 0
  strFromAccount := []
  nOrderPos := -1
  fDebitCached := false
  fCreditCached := false
  fAvailableCreditCached := false
  fChangeCached := false

/-- Make sure balances are recalculated. -/
def CWalletTx.markDirty (wtx : CWalletTx) : CWalletTx :=
  { wtx with
    fCreditCached := false
    fAvailableCreditCached := false
    fDebitCached := false
    fChangeCached := false }

abbrev MapWallet := Std.ExtTreeMap UInt256 CWalletTx

/-- A multimap, in the order of insertion. -/
abbrev TxSpends := List (COutPoint × UInt256)

/-- The transactions that `equal_range` finds for an outpoint. -/
def equalRange (mapTxSpends : TxSpends) (outpoint : COutPoint) : List UInt256 :=
  (mapTxSpends.filter fun spend => spend.1 = outpoint).map Prod.snd

/-! ## SyncMetaData -/

/-- `mapWallet[hash]`, which inserts an empty transaction if there is none. -/
def MapWallet.get (m : MapWallet) (hash : UInt256) : CWalletTx × MapWallet :=
  match m[hash]? with
  | some wtx => (wtx, m)
  | none => (CWalletTx.init, m.insert hash CWalletTx.init)

/-- `std::numeric_limits<int>::max()`. -/
def INT_MAX : ℤ := 2147483647

/-- The loop that finds the smallest `nOrderPos`, which is converted to an `int`. -/
def findCopyFrom : List UInt256 → ℤ → Option UInt256 → MapWallet → Option UInt256 × MapWallet
  | [], _, copyFrom, m => (copyFrom, m)
  | hash :: range, nMinOrderPos, copyFrom, m =>
    let (wtx, m) := m.get hash
    let n := wtx.nOrderPos.bmod (2 ^ 32)
    if n < nMinOrderPos then findCopyFrom range n (some hash) m
    else findCopyFrom range nMinOrderPos copyFrom m

/-- The metadata that transactions share, less what is not copied on purpose. -/
def CWalletTx.copyMetaData (copyTo copyFrom : CWalletTx) : CWalletTx :=
  { copyTo with
    mapValue := copyFrom.mapValue
    vOrderForm := copyFrom.vOrderForm
    nTimeSmart := copyFrom.nTimeSmart
    fFromMe := copyFrom.fFromMe
    strFromAccount := copyFrom.strFromAccount }

/-- The loop that copies to the rest ; `none` if it reads from the null pointer. -/
def copyToRest (copyFrom : Option UInt256) : List UInt256 → MapWallet → Option MapWallet
  | [], m => some m
  | hash :: range, m => do
    let (copyTo, m) := m.get hash
    if copyFrom = some hash then copyToRest copyFrom range m
    else
      let wtxFrom ← copyFrom.bind fun hashFrom => m[hashFrom]?
      copyToRest copyFrom range (m.insert hash (copyTo.copyMetaData wtxFrom))

def syncMetaData (range : List UInt256) (m : MapWallet) : Option MapWallet :=
  let (copyFrom, m) := findCopyFrom range INT_MAX none m
  copyToRest copyFrom range m

/-! ## AddToWallet and EraseFromWallet -/

structure CWallet where
  fFileBacked : Bool
  mapWallet : MapWallet := ∅
  mapTxSpends : TxSpends := []
  nOrderPosNext : ℤ := 0

structure CAccountingEntry where
  nTime : ℤ
  nOrderPos : ℤ
  deriving DecidableEq, Repr

/-- What a call reads outside of the wallet. -/
structure WalletEnv where
  nAdjustedTime : ℤ
  /-- the time of a block in `mapBlockIndex` -/
  blockTime : UInt256 → Option UInt32
  acentries : List CAccountingEntry
  /-- whether `WriteToDisk` succeeds -/
  written : Bool

namespace CWallet

/-- `AddToSpends` for an outpoint. -/
def addOutPointToSpends (outpoint : COutPoint) (wtxid : UInt256) (w : CWallet) : Option CWallet :=
  let mapTxSpends := w.mapTxSpends ++ [(outpoint, wtxid)]
  (syncMetaData (equalRange mapTxSpends outpoint) w.mapWallet).map fun m =>
    { w with mapWallet := m, mapTxSpends := mapTxSpends }

/-- `AddToSpends` for a transaction, which is asserted to be in the wallet. -/
def addToSpends (wtxid : UInt256) (w : CWallet) : Option CWallet :=
  match w.mapWallet[wtxid]? with
  | none => none
  | some thisTx =>
    if thisTx.isCoinBase then some w
    else thisTx.vin.foldlM (fun w txin => w.addOutPointToSpends txin.prevout wtxid) w

/-- An item in the order of activities : a wallet transaction or an accounting entry. -/
inductive TxPair where
  | tx (hash : UInt256) (wtx : CWalletTx)
  | acentry (entry : CAccountingEntry)

def TxPair.nOrderPos : TxPair → ℤ
  | .tx _ wtx => wtx.nOrderPos
  | .acentry entry => entry.nOrderPos

/-- Whether the item is the transaction of a hash. -/
def TxPair.isTx (hash : UInt256) : TxPair → Bool
  | .tx hash' _ => hash' = hash
  | .acentry _ => false

def TxPair.nSmartTime : TxPair → ℤ
  | .tx _ wtx => if wtx.nTimeSmart = 0 then wtx.nTimeReceived.toNat else wtx.nTimeSmart.toNat
  | .acentry entry => entry.nTime

def orderedTxItems (acentries : List CAccountingEntry) (m : MapWallet) : List TxPair :=
  (m.toList.map (fun item => TxPair.tx item.1 item.2) ++
    acentries.map TxPair.acentry).insertionSort fun a b => a.nOrderPos ≤ b.nOrderPos

/-- The time of a new transaction in a block, which is not before the last item whose time is
not more than five minutes into the future. -/
def smartTime (blocktime nTimeReceived : UInt32) (hash : UInt256) (txOrdered : List TxPair) :
    UInt32 :=
  let latestTolerated : ℤ := (nTimeReceived + 300).toNat
  match txOrdered.reverse.find? fun item =>
    !item.isTx hash && decide (item.nSmartTime ≤ latestTolerated) with
  | none => max 0 (min blocktime nTimeReceived)
  | some item =>
    let latestNow := if item.nSmartTime > nTimeReceived.toNat then UInt32.ofInt item.nSmartTime
      else nTimeReceived
    max (UInt32.ofInt item.nSmartTime) (min blocktime latestNow)

/-- A transaction of the wallet is changed. -/
def modifyTx (hash : UInt256) (f : CWalletTx → CWalletTx) (w : CWallet) : CWallet :=
  match w.mapWallet[hash]? with
  | none => w
  | some wtx => { w with mapWallet := w.mapWallet.insert hash (f wtx) }

/-- The end of `AddToWallet` : write to disk, and break debit/credit balance caches. -/
def writeTx (env : WalletEnv) (hash : UInt256) (write : Bool) (w : CWallet) : Bool × CWallet :=
  if write && !env.written then (false, w) else (true, w.modifyTx hash CWalletTx.markDirty)

/-- `AddToWallet` for a transaction that is new. -/
def insertTx (env : WalletEnv) (hash : UInt256) (wtxIn : CWalletTx) (w : CWallet) :
    Option (Bool × CWallet) :=
  let nTimeReceived := UInt32.ofInt env.nAdjustedTime
  let wtx := { wtxIn.markDirty with
    nTimeReceived := nTimeReceived
    nOrderPos := w.nOrderPosNext
    nTimeSmart := nTimeReceived }
  let m := w.mapWallet.insert hash wtx
  let blockTime := if wtxIn.hashBlock = 0 then none else env.blockTime wtxIn.hashBlock
  let nTimeSmart := match blockTime with
    | none => nTimeReceived
    | some blocktime => smartTime blocktime nTimeReceived hash (orderedTxItems env.acentries m)
  let w := { w with
    mapWallet := w.mapWallet.insert hash { wtx with nTimeSmart := nTimeSmart }
    nOrderPosNext := w.nOrderPosNext + 1 }
  (w.addToSpends hash).map (writeTx env hash true)

/-- The three updates of a transaction that is there, with whether there was one. -/
def mergeTx (wtxIn wtx : CWalletTx) : Bool × CWalletTx :=
  let fBlock := wtxIn.hashBlock != 0 && wtxIn.hashBlock != wtx.hashBlock
  let fBranch := wtxIn.nIndex != -1 &&
    (wtxIn.vMerkleBranch != wtx.vMerkleBranch || wtxIn.nIndex != wtx.nIndex)
  let fFromMe := wtxIn.fFromMe != 0 && wtxIn.fFromMe != wtx.fFromMe
  (fBlock || fBranch || fFromMe,
    { wtx with
      hashBlock := if fBlock then wtxIn.hashBlock else wtx.hashBlock
      vMerkleBranch := if fBranch then wtxIn.vMerkleBranch else wtx.vMerkleBranch
      nIndex := if fBranch then wtxIn.nIndex else wtx.nIndex
      fFromMe := if fFromMe then wtxIn.fFromMe else wtx.fFromMe })

variable (H : Bytes → UInt256)

def addToWallet (env : WalletEnv) (wtxIn : CWalletTx) (fFromLoadWallet : Bool) (w : CWallet) :
    Option (Bool × CWallet) :=
  let hash := wtxIn.getHash H
  if fFromLoadWallet then
    let w := { w with mapWallet := w.mapWallet.insert hash wtxIn.markDirty }
    (w.addToSpends hash).map fun w => (true, w)
  else
    match w.mapWallet[hash]? with
    | none => w.insertTx env hash wtxIn
    | some wtx =>
      let (fUpdated, wtx) := mergeTx wtxIn wtx.markDirty
      some (writeTx env hash fUpdated { w with mapWallet := w.mapWallet.insert hash wtx })

def eraseFromWallet (hash : UInt256) (w : CWallet) : CWallet :=
  if w.fFileBacked then { w with mapWallet := w.mapWallet.erase hash } else w

/-! ## Readers of the index -/

/-- Outpoint is spent if any non-conflicted transaction spends it ; `nDepth` is
`GetDepthInMainChain`. -/
def isSpent (nDepth : CWalletTx → ℤ) (hash : UInt256) (n : UInt32) (w : CWallet) : Bool :=
  (equalRange w.mapTxSpends ⟨hash, n⟩).any fun wtxid =>
    match w.mapWallet[wtxid]? with
    | none => false
    | some wtx => decide (0 ≤ nDepth wtx)

/-- The transactions that spend an output which the transaction and another one spend. -/
def getConflicts (txid : UInt256) (w : CWallet) : List UInt256 :=
  match w.mapWallet[txid]? with
  | none => []
  | some wtx => (wtx.vin.flatMap fun txin =>
      let range := equalRange w.mapTxSpends txin.prevout
      if range.length ≤ 1 then [] else range).dedup

end CWallet

inductive WalletCall where
  | addToWallet (env : WalletEnv) (wtxIn : CWalletTx) (fFromLoadWallet : Bool)
  | eraseFromWallet (hash : UInt256)

def WalletCall.exec (H : Bytes → UInt256) (w : CWallet) : WalletCall → Option CWallet
  | .addToWallet env wtxIn fFromLoadWallet =>
    (w.addToWallet H env wtxIn fFromLoadWallet).map Prod.snd
  | .eraseFromWallet hash => some (w.eraseFromWallet hash)

/-! ## What the calls do to the transactions and the index -/

/-- The transaction of a hash, without what only its owner cares about. -/
def walletTx (m : MapWallet) (hash : UInt256) : Option CTransaction :=
  m[hash]?.map CWalletTx.toCTransaction

section WalletTx

variable {m : MapWallet} {hash : UInt256} {wtx : CWalletTx}

theorem walletTx_insert :
    walletTx (m.insert hash wtx) = Function.update (walletTx m) hash (some wtx.toCTransaction) := by
  ext1 h
  rw [walletTx, Std.ExtTreeMap.getElem?_insert]
  by_cases hh : h = hash
  · rw [hh, if_pos Std.ReflCmp.compare_self, Function.update_self]
    rfl
  · rw [if_neg fun heq => hh (Std.LawfulEqOrd.eq_of_compare heq).symm, Function.update_of_ne hh]
    rfl

theorem walletTx_eq (h : m[hash]? = some wtx) : walletTx m hash = some wtx.toCTransaction := by
  rw [walletTx, h, Option.map_some]

/-- A transaction whose metadata changes. -/
theorem walletTx_insert_same {wtx' : CWalletTx} (h : m[hash]? = some wtx)
    (htx : wtx'.toCTransaction = wtx.toCTransaction) :
    walletTx (m.insert hash wtx') = walletTx m := by
  rw [walletTx_insert, htx, ← walletTx_eq h, Function.update_eq_self]

theorem walletTx_erase : walletTx (m.erase hash) = Function.update (walletTx m) hash none := by
  ext1 h
  rw [walletTx, Std.ExtTreeMap.getElem?_erase]
  by_cases hh : h = hash
  · rw [hh, if_pos Std.ReflCmp.compare_self, Function.update_self, Option.map_none]
  · rw [if_neg fun heq => hh (Std.LawfulEqOrd.eq_of_compare heq).symm, Function.update_of_ne hh]
    rfl

theorem mem_iff_walletTx : hash ∈ m ↔ ∃ tx, walletTx m hash = some tx := by
  rw [Std.ExtTreeMap.mem_iff_isSome_getElem?, ← Option.isSome_iff_exists, walletTx,
    Option.isSome_map]

/-- `mapWallet[hash]` of a transaction that is there. -/
theorem MapWallet.get_of_mem (h : hash ∈ m) :
    ∃ wtx, m[hash]? = some wtx ∧ MapWallet.get m hash = (wtx, m) := by
  obtain ⟨wtx, hwtx⟩ := Option.isSome_iff_exists.mp (Std.ExtTreeMap.mem_iff_isSome_getElem?.mp h)
  exact ⟨wtx, hwtx, by rw [MapWallet.get, hwtx]⟩

end WalletTx

theorem findCopyFrom_map {m : MapWallet} : ∀ (range : List UInt256) (n : ℤ)
    (copyFrom : Option UInt256), (∀ hash ∈ range, hash ∈ m) →
    (findCopyFrom range n copyFrom m).2 = m
  | [], _, _, _ => rfl
  | hash :: range, n, copyFrom, h => by
    obtain ⟨wtx, -, hget⟩ := MapWallet.get_of_mem (h hash List.mem_cons_self)
    have hrange : ∀ hash ∈ range, hash ∈ m := fun hash hmem => h hash (List.mem_cons_of_mem _ hmem)
    rw [findCopyFrom, hget]
    dsimp only
    split
    · exact findCopyFrom_map range _ _ hrange
    · exact findCopyFrom_map range _ _ hrange

theorem copyToRest_walletTx {copyFrom : Option UInt256} : ∀ (range : List UInt256)
    {m m' : MapWallet}, (∀ hash ∈ range, hash ∈ m) → copyToRest copyFrom range m = some m' →
    walletTx m' = walletTx m
  | [], m, m', _, hrun => by
    cases hrun
    rfl
  | hash :: range, m, m', h, hrun => by
    obtain ⟨wtx, hwtx, hget⟩ := MapWallet.get_of_mem (h hash List.mem_cons_self)
    have hrange : ∀ hash ∈ range, hash ∈ m := fun hash hmem => h hash (List.mem_cons_of_mem _ hmem)
    rw [copyToRest, hget] at hrun
    dsimp only at hrun
    split at hrun
    · exact copyToRest_walletTx range hrange hrun
    · obtain ⟨wtxFrom, -, hrun⟩ := Option.bind_eq_some_iff.mp hrun
      have hsame : walletTx (m.insert hash (wtx.copyMetaData wtxFrom)) = walletTx m :=
        walletTx_insert_same hwtx rfl
      refine (copyToRest_walletTx range (fun hash hmem => ?_) hrun).trans hsame
      rw [mem_iff_walletTx, hsame, ← mem_iff_walletTx]
      exact hrange hash hmem

/-- Metadata is copied, and no transaction is made, where all of the range are in the wallet. -/
theorem syncMetaData_walletTx {range : List UInt256} {m m' : MapWallet}
    (h : ∀ hash ∈ range, hash ∈ m) (hrun : syncMetaData range m = some m') :
    walletTx m' = walletTx m := by
  rw [syncMetaData] at hrun
  have hmap := findCopyFrom_map range INT_MAX none h
  generalize findCopyFrom range INT_MAX none m = found at hrun hmap
  obtain ⟨copyFrom, m₁⟩ := found
  cases hmap
  exact copyToRest_walletTx range h hrun

/-- A transaction that is no coinbase has the outpoint among its inputs. -/
def CTransaction.Spends (tx : CTransaction) (outpoint : COutPoint) : Prop :=
  tx.isCoinBase = false ∧ outpoint ∈ tx.vin.map CTxIn.prevout

/-- `mapTxSpends` has what the wallet's transactions spend. -/
def SpendIndex (w : CWallet) : Prop := ∀ (outpoint : COutPoint) (txid : UInt256),
  (outpoint, txid) ∈ w.mapTxSpends ↔
    ∃ tx, walletTx w.mapWallet txid = some tx ∧ tx.Spends outpoint

theorem mem_equalRange {spends : TxSpends} {outpoint : COutPoint} {txid : UInt256} :
    txid ∈ equalRange spends outpoint ↔ (outpoint, txid) ∈ spends := by
  simp [equalRange, eq_comm]

namespace CWallet

variable {w w' : CWallet} {wtxid hash : UInt256}

/-- Every transaction that `mapTxSpends` names is in the wallet. -/
def Known (w : CWallet) : Prop := ∀ spend ∈ w.mapTxSpends, spend.2 ∈ w.mapWallet

theorem addOutPointToSpends_spec {outpoint : COutPoint} (h : w.Known) (hid : wtxid ∈ w.mapWallet)
    (hrun : w.addOutPointToSpends outpoint wtxid = some w') :
    walletTx w'.mapWallet = walletTx w.mapWallet ∧
      w'.mapTxSpends = w.mapTxSpends ++ [(outpoint, wtxid)] := by
  obtain ⟨m', hm', rfl⟩ := Option.map_eq_some_iff.mp hrun
  refine ⟨syncMetaData_walletTx (fun hash hmem => ?_) hm', rfl⟩
  rcases List.mem_append.mp (mem_equalRange.mp hmem) with hmem | hmem
  · exact h _ hmem
  · cases List.mem_singleton.mp hmem
    exact hid

theorem Known.of_walletTx (h : w.Known) (hid : wtxid ∈ w.mapWallet)
    (htx : walletTx w'.mapWallet = walletTx w.mapWallet) (outpoints : List COutPoint)
    (hspends : w'.mapTxSpends = w.mapTxSpends ++ outpoints.map (·, wtxid)) : w'.Known := by
  intro spend hmem
  rw [mem_iff_walletTx, htx, ← mem_iff_walletTx]
  rw [hspends, List.mem_append, List.mem_map] at hmem
  obtain hmem | ⟨outpoint, -, rfl⟩ := hmem
  · exact h _ hmem
  · exact hid

theorem foldlM_addOutPointToSpends : ∀ (vin : List CTxIn) {w w' : CWallet}, w.Known →
    wtxid ∈ w.mapWallet →
    vin.foldlM (fun w txin => w.addOutPointToSpends txin.prevout wtxid) w = some w' →
    walletTx w'.mapWallet = walletTx w.mapWallet ∧
      w'.mapTxSpends = w.mapTxSpends ++ (vin.map CTxIn.prevout).map (·, wtxid)
  | [], w, w', _, _, hrun => by
    cases hrun
    exact ⟨rfl, (List.append_nil _).symm⟩
  | txin :: vin, w, w', h, hid, hrun => by
    rw [List.foldlM_cons] at hrun
    obtain ⟨w₁, hstep, hrest⟩ := Option.bind_eq_some_iff.mp hrun
    obtain ⟨htx, hspends⟩ := addOutPointToSpends_spec h hid hstep
    have hid₁ : wtxid ∈ w₁.mapWallet := by rwa [mem_iff_walletTx, htx, ← mem_iff_walletTx]
    have hknown : w₁.Known := h.of_walletTx hid htx [txin.prevout] hspends
    obtain ⟨htx', hspends'⟩ := foldlM_addOutPointToSpends vin hknown hid₁ hrest
    refine ⟨htx'.trans htx, ?_⟩
    rw [hspends', hspends, List.append_assoc]
    rfl

/-- The outpoints that a transaction spends. -/
def spendsOf (tx : CTransaction) : List COutPoint :=
  if tx.isCoinBase then [] else tx.vin.map CTxIn.prevout

theorem mem_spendsOf {tx : CTransaction} {outpoint : COutPoint} :
    outpoint ∈ spendsOf tx ↔ tx.Spends outpoint := by
  unfold spendsOf CTransaction.Spends
  split <;> simp_all

theorem addToSpends_spec {wtx : CWalletTx} (h : w.Known) (hwtx : w.mapWallet[wtxid]? = some wtx)
    (hrun : w.addToSpends wtxid = some w') :
    walletTx w'.mapWallet = walletTx w.mapWallet ∧
      w'.mapTxSpends = w.mapTxSpends ++ (spendsOf wtx.toCTransaction).map (·, wtxid) := by
  have hid : wtxid ∈ w.mapWallet := mem_iff_walletTx.mpr ⟨_, walletTx_eq hwtx⟩
  rw [addToSpends, hwtx] at hrun
  dsimp only at hrun
  unfold spendsOf
  split at hrun
  · rename_i hcb
    cases hrun
    rw [if_pos hcb]
    exact ⟨rfl, (List.append_nil _).symm⟩
  · rename_i hcb
    rw [if_neg hcb]
    exact foldlM_addOutPointToSpends wtx.vin h hid hrun

/-- A transaction is put into the wallet, and what it spends into `mapTxSpends`. -/
structure Puts (w w' : CWallet) (hash : UInt256) (tx : CTransaction) : Prop where
  walletTx : walletTx w'.mapWallet = Function.update (walletTx w.mapWallet) hash (some tx)
  mapTxSpends : w'.mapTxSpends = w.mapTxSpends ++ (spendsOf tx).map (·, hash)

/-- A transaction is put into `mapWallet` before `AddToSpends`. -/
theorem puts_of_addToSpends (h : w.Known) {wtx : CWalletTx} {nOrderPosNext : ℤ}
    (hrun : addToSpends hash { w with
      mapWallet := w.mapWallet.insert hash wtx
      nOrderPosNext := nOrderPosNext } = some w') : Puts w w' hash wtx.toCTransaction := by
  have hknown : Known { w with
      mapWallet := w.mapWallet.insert hash wtx
      nOrderPosNext := nOrderPosNext } :=
    fun spend hmem => Std.ExtTreeMap.mem_insert.mpr (.inr (h spend hmem))
  obtain ⟨htx, hspends⟩ := addToSpends_spec hknown Std.ExtTreeMap.getElem?_insert_self hrun
  exact ⟨htx.trans walletTx_insert, hspends⟩

theorem walletTx_modifyTx {f : CWalletTx → CWalletTx}
    (hf : ∀ wtx, (f wtx).toCTransaction = wtx.toCTransaction) :
    Ticoin.walletTx (w.modifyTx hash f).mapWallet = Ticoin.walletTx w.mapWallet := by
  rw [modifyTx]
  split
  · rfl
  · rename_i wtx hwtx
    exact walletTx_insert_same hwtx (hf wtx)

theorem writeTx_spec (env : WalletEnv) (hash : UInt256) (write : Bool) (w : CWallet) :
    Ticoin.walletTx (writeTx env hash write w).2.mapWallet = Ticoin.walletTx w.mapWallet ∧
      (writeTx env hash write w).2.mapTxSpends = w.mapTxSpends := by
  rw [writeTx]
  split
  · exact ⟨rfl, rfl⟩
  · refine ⟨walletTx_modifyTx fun _ => rfl, ?_⟩
    rw [modifyTx]
    split <;> rfl

variable {H : Bytes → UInt256}

/-- `AddToWallet` puts the transaction into the wallet, or it is there and only its metadata
changes. -/
theorem addToWallet_spec (h : w.Known) {env : WalletEnv} {wtxIn : CWalletTx} {load b : Bool}
    (hrun : w.addToWallet H env wtxIn load = some (b, w')) :
    (Puts w w' (wtxIn.getHash H) wtxIn.toCTransaction ∧
      (load = false → Ticoin.walletTx w.mapWallet (wtxIn.getHash H) = none)) ∨
    (load = false ∧ Ticoin.walletTx w'.mapWallet = Ticoin.walletTx w.mapWallet ∧
      w'.mapTxSpends = w.mapTxSpends ∧ wtxIn.getHash H ∈ w.mapWallet) := by
  rw [addToWallet] at hrun
  cases load with
  | true =>
    obtain ⟨w₁, hw₁, heq⟩ := Option.map_eq_some_iff.mp hrun
    cases heq
    have hputs : Puts w w' (wtxIn.getHash H) wtxIn.markDirty.toCTransaction :=
      puts_of_addToSpends h hw₁
    exact .inl ⟨hputs, nofun⟩
  | false =>
    cases hwtx : w.mapWallet[wtxIn.getHash H]? with
    | none =>
      simp only [Bool.false_eq_true, if_false, hwtx, insertTx] at hrun
      obtain ⟨w₁, hw₁, heq⟩ := Option.map_eq_some_iff.mp hrun
      obtain ⟨htx, hspends⟩ := puts_of_addToSpends h hw₁
      obtain ⟨hsame, hsame'⟩ := writeTx_spec env (wtxIn.getHash H) true w₁
      rw [heq] at hsame hsame'
      exact .inl ⟨⟨hsame.trans htx, hsame'.trans hspends⟩, fun _ => by
        rw [Ticoin.walletTx, hwtx, Option.map_none]⟩
    | some wtx =>
      simp only [Bool.false_eq_true, if_false, hwtx, Option.some.injEq] at hrun
      obtain ⟨hsame, hsame'⟩ := writeTx_spec env (wtxIn.getHash H) (mergeTx wtxIn wtx.markDirty).1
        { w with mapWallet := w.mapWallet.insert (wtxIn.getHash H) (mergeTx wtxIn wtx.markDirty).2 }
      rw [hrun] at hsame hsame'
      exact .inr ⟨rfl, hsame.trans (walletTx_insert_same hwtx rfl), hsame',
        mem_iff_walletTx.mpr ⟨_, walletTx_eq hwtx⟩⟩

end CWallet

/-! ## What keeps the index -/

variable {H : Bytes → UInt256} {w w' : CWallet}

theorem SpendIndex.known (h : SpendIndex w) : w.Known := fun spend hmem => by
  obtain ⟨tx, htx, -⟩ := (h spend.1 spend.2).mp hmem
  exact mem_iff_walletTx.mpr ⟨tx, htx⟩

theorem SpendIndex.congr (hspends : w'.mapTxSpends = w.mapTxSpends)
    (htx : walletTx w'.mapWallet = walletTx w.mapWallet) (h : SpendIndex w) : SpendIndex w' := by
  intro outpoint txid
  rw [hspends, htx]
  exact h outpoint txid

/-- The index stays right if a transaction that was there under the same hash spends no more. -/
theorem SpendIndex.puts_iff (h : SpendIndex w) {hash : UInt256} {tx : CTransaction}
    (hputs : CWallet.Puts w w' hash tx) : SpendIndex w' ↔
      ∀ tx₀ outpoint, walletTx w.mapWallet hash = some tx₀ → tx₀.Spends outpoint →
        tx.Spends outpoint := by
  have hmem : ∀ outpoint txid, (outpoint, txid) ∈ w'.mapTxSpends ↔
      (∃ tx₀, walletTx w.mapWallet txid = some tx₀ ∧ tx₀.Spends outpoint) ∨
        (tx.Spends outpoint ∧ hash = txid) := by
    intro outpoint txid
    rw [hputs.mapTxSpends, List.mem_append, h outpoint txid, List.mem_map]
    refine or_congr_right ⟨fun ⟨o, ho, heq⟩ => ?_, fun ⟨ho, heq⟩ => ?_⟩
    · cases heq
      exact ⟨CWallet.mem_spendsOf.mp ho, rfl⟩
    · exact ⟨outpoint, CWallet.mem_spendsOf.mpr ho, by rw [heq]⟩
  constructor
  · intro h' tx₀ outpoint htx₀ hspends
    obtain ⟨tx', htx', hspends'⟩ := (h' outpoint hash).mp ((hmem outpoint hash).mpr
      (.inl ⟨tx₀, htx₀, hspends⟩))
    rw [hputs.walletTx, Function.update_self] at htx'
    cases htx'
    exact hspends'
  · intro hkeeps outpoint txid
    rw [hmem, hputs.walletTx]
    by_cases heq : txid = hash
    · subst heq
      rw [Function.update_self]
      constructor
      · rintro (⟨tx₀, htx₀, hspends⟩ | ⟨hspends, -⟩)
        · exact ⟨tx, rfl, hkeeps tx₀ outpoint htx₀ hspends⟩
        · exact ⟨tx, rfl, hspends⟩
      · rintro ⟨tx', htx', hspends⟩
        cases htx'
        exact .inr ⟨hspends, rfl⟩
    · rw [Function.update_of_ne heq]
      constructor
      · rintro (h | ⟨-, rfl⟩)
        · exact h
        · exact absurd rfl heq
      · exact .inl

/-- The index stays right if a transaction that is erased spends nothing. -/
theorem SpendIndex.erase_iff (h : SpendIndex w) {hash : UInt256}
    (htx : walletTx w'.mapWallet = Function.update (walletTx w.mapWallet) hash none)
    (hspends : w'.mapTxSpends = w.mapTxSpends) : SpendIndex w' ↔
      ∀ tx outpoint, walletTx w.mapWallet hash = some tx → ¬ tx.Spends outpoint := by
  constructor
  · intro h' tx outpoint htx' hspend
    have hmem := (h outpoint hash).mpr ⟨tx, htx', hspend⟩
    rw [← hspends, h', htx, Function.update_self] at hmem
    obtain ⟨tx', hnone, -⟩ := hmem
    cases hnone
  · intro hkeeps outpoint txid
    rw [hspends, h, htx]
    by_cases heq : txid = hash
    · subst heq
      rw [Function.update_self]
      refine ⟨fun ⟨tx, htx', hspend⟩ => absurd hspend (hkeeps tx outpoint htx'), ?_⟩
      rintro ⟨tx, hnone, -⟩
      cases hnone
    · rw [Function.update_of_ne heq]

/-- The call takes no transaction that spends out of `mapWallet` : on disk-backed wallets none
such is erased, and none is loaded over one with the same hash that spends something else. -/
def WalletCall.Keeps (H : Bytes → UInt256) (w : CWallet) : WalletCall → Prop
  | .addToWallet _ wtxIn fFromLoadWallet => fFromLoadWallet = true → ∀ tx outpoint,
      walletTx w.mapWallet (wtxIn.getHash H) = some tx → tx.Spends outpoint →
        wtxIn.toCTransaction.Spends outpoint
  | .eraseFromWallet hash => w.fFileBacked = true → ∀ tx outpoint,
      walletTx w.mapWallet hash = some tx → ¬ tx.Spends outpoint

/-- The transaction that a call adds. -/
def WalletCall.Adds (H : Bytes → UInt256) (hash : UInt256) : WalletCall → Prop
  | .addToWallet _ wtxIn _ => wtxIn.getHash H = hash
  | .eraseFromWallet _ => False

/-- A call keeps the index if and only if it takes away nothing that spends, and it makes no
transaction but its own. -/
theorem WalletCall.exec_spec (h : SpendIndex w) {call : WalletCall}
    (hrun : call.exec H w = some w') : (SpendIndex w' ↔ call.Keeps H w) ∧
      ∀ hash ∈ w'.mapWallet, hash ∈ w.mapWallet ∨ call.Adds H hash := by
  cases call with
  | addToWallet env wtxIn load =>
    obtain ⟨r, hr, rfl⟩ := Option.map_eq_some_iff.mp hrun
    rcases CWallet.addToWallet_spec h.known hr with ⟨hputs, hnew⟩ | ⟨rfl, htx, hspends, -⟩
    · refine ⟨(h.puts_iff hputs).trans ⟨fun hkeeps _ => hkeeps, fun hkeeps tx₀ o htx₀ => ?_⟩,
        fun hash hmem => ?_⟩
      · cases load with
        | true => exact hkeeps rfl tx₀ o htx₀
        | false =>
          rw [hnew rfl] at htx₀
          cases htx₀
      · rw [mem_iff_walletTx, hputs.walletTx] at hmem
        by_cases heq : hash = wtxIn.getHash H
        · exact .inr heq.symm
        · rw [Function.update_of_ne heq] at hmem
          exact .inl (mem_iff_walletTx.mpr hmem)
    · refine ⟨⟨fun _ => nofun, fun _ => h.congr hspends htx⟩, fun hash hmem => .inl ?_⟩
      rwa [mem_iff_walletTx, htx, ← mem_iff_walletTx] at hmem
  | eraseFromWallet hash =>
    cases hrun
    rw [CWallet.eraseFromWallet, Keeps]
    split
    · rename_i hbacked
      have hiff : SpendIndex { w with mapWallet := w.mapWallet.erase hash } ↔ ∀ tx outpoint,
          walletTx w.mapWallet hash = some tx → ¬ tx.Spends outpoint :=
        h.erase_iff walletTx_erase rfl
      exact ⟨hiff.trans ⟨fun hkeeps _ => hkeeps, fun hkeeps => hkeeps hbacked⟩,
        fun hash hmem => .inl (Std.ExtTreeMap.mem_of_mem_erase hmem)⟩
    · rename_i hbacked
      exact ⟨⟨fun _ hb => absurd hb hbacked, fun _ => h⟩, fun hash hmem => .inl hmem⟩

/-! ## Runs -/

/-- What the readers of the index find is in the wallet. -/
structure ReadersKnow (w : CWallet) : Prop where
  range : ∀ outpoint, ∀ txid ∈ equalRange w.mapTxSpends outpoint, txid ∈ w.mapWallet
  isSpent : ∀ (nDepth : CWalletTx → ℤ) (hash : UInt256) (n : UInt32),
    w.isSpent nDepth hash n = true ↔ ∃ (txid : UInt256) (wtx : CWalletTx),
      w.mapWallet[txid]? = some wtx ∧ wtx.Spends ⟨hash, n⟩ ∧ 0 ≤ nDepth wtx
  getConflicts : ∀ txid, ∀ hash ∈ w.getConflicts txid, hash ∈ w.mapWallet
  syncMetaData : ∀ (outpoint : COutPoint) (m' : MapWallet),
    syncMetaData (equalRange w.mapTxSpends outpoint) w.mapWallet = some m' →
      ∀ hash, hash ∈ m' ↔ hash ∈ w.mapWallet

theorem SpendIndex.readersKnow (h : SpendIndex w) : ReadersKnow w where
  range outpoint txid hmem := h.known _ (mem_equalRange.mp hmem)
  isSpent nDepth hash n := by
    rw [CWallet.isSpent, List.any_eq_true]
    constructor
    · rintro ⟨txid, hmem, hdepth⟩
      obtain ⟨tx, htx, hspends⟩ := (h _ _).mp (mem_equalRange.mp hmem)
      obtain ⟨wtx, hwtx, rfl⟩ := Option.map_eq_some_iff.mp htx
      rw [hwtx] at hdepth
      exact ⟨txid, wtx, hwtx, hspends, of_decide_eq_true hdepth⟩
    · rintro ⟨txid, wtx, hwtx, hspends, hdepth⟩
      refine ⟨txid, mem_equalRange.mpr ((h _ _).mpr ⟨_, walletTx_eq hwtx, hspends⟩), ?_⟩
      rw [hwtx]
      exact decide_eq_true hdepth
  getConflicts txid hash hmem := by
    rw [CWallet.getConflicts] at hmem
    split at hmem
    · cases hmem
    · rw [List.mem_dedup, List.mem_flatMap] at hmem
      obtain ⟨txin, -, hmem⟩ := hmem
      dsimp only at hmem
      split at hmem
      · cases hmem
      · exact h.known _ (mem_equalRange.mp hmem)
  syncMetaData outpoint m' hrun hash := by
    rw [mem_iff_walletTx, mem_iff_walletTx,
      syncMetaData_walletTx (fun txid hmem => h.known _ (mem_equalRange.mp hmem)) hrun]

/-- A call that takes away nothing that spends. -/
def KeepingStep (H : Bytes → UInt256) (w w' : CWallet) : Prop :=
  ∃ call : WalletCall, call.Keeps H w ∧ call.exec H w = some w'

/-- After calls that take away nothing that spends, the index is right, its readers find only
transactions of the wallet, and the next call keeps it so if and only if it takes away nothing
that spends either. -/
theorem spendIndex_of_run {fFileBacked : Bool} {nOrderPosNext : ℤ}
    (hrun : Relation.ReflTransGen (KeepingStep H) ⟨fFileBacked, ∅, [], nOrderPosNext⟩ w) :
    SpendIndex w ∧ ReadersKnow w ∧ ∀ (call : WalletCall) (w' : CWallet), call.exec H w = some w' →
      (SpendIndex w' ↔ call.Keeps H w) ∧
        ∀ hash ∈ w'.mapWallet, hash ∈ w.mapWallet ∨ call.Adds H hash := by
  have hempty : SpendIndex ⟨fFileBacked, ∅, [], nOrderPosNext⟩ := by
    intro outpoint txid
    simp [walletTx]
  have h : SpendIndex w := Machine.invariant_of_steps (fun w w' h ⟨call, hkeeps, hstep⟩ =>
    (call.exec_spec h hstep).1.mpr hkeeps) hrun hempty
  exact ⟨h, h.readersKnow, fun call w' hstep => call.exec_spec h hstep⟩

/-- A transaction with one input, which spends the first output of a transaction. -/
def spendOf (hash : UInt256) (scriptSig : Bytes) : CWalletTx :=
  { CWalletTx.init with vin := [⟨⟨hash, 0⟩, scriptSig, 0xffffffff⟩], vout := [⟨1, []⟩] }

/-- A call adds a transaction at some time. -/
def addCall (wtxIn : CWalletTx) : WalletCall :=
  .addToWallet ⟨1400000000, fun _ => none, [], true⟩ wtxIn false

/-- A hash for concrete runs, which tells transactions of different sizes apart. -/
def sizeHash (bytes : Bytes) : UInt256 := BitVec.ofNat 256 bytes.length

theorem spendIndex_of_addCall :
    SpendIndex (((addCall (spendOf 7 [])).exec sizeHash ⟨true, ∅, [], 0⟩).get (by decide)) :=
  (spendIndex_of_run (H := sizeHash) (.single ⟨addCall (spendOf 7 []), nofun,
    (Option.some_get _).symm⟩)).1

/-- A transaction is added and erased. -/
def eraseCalls : List WalletCall :=
  [addCall (spendOf 7 []), .eraseFromWallet ((spendOf 7 []).getHash sizeHash)]

/-- The wallet after a transaction is added and erased. -/
def erasedWallet : CWallet :=
  (eraseCalls.foldlM (WalletCall.exec sizeHash) ⟨true, ∅, [], 0⟩).get (by decide)

/-- A transaction is erased and its outpoint stays in `mapTxSpends` ; when another transaction
spends the same output, `SyncMetaData` makes an empty transaction under the erased hash. -/
theorem eraseFromWallet_stale :
    eraseCalls.foldlM (WalletCall.exec sizeHash) ⟨true, ∅, [], 0⟩ = some erasedWallet ∧
    ¬ SpendIndex erasedWallet ∧
    (spendOf 7 []).getHash sizeHash ≠ (spendOf 7 [0]).getHash sizeHash ∧
    walletTx erasedWallet.mapWallet ((spendOf 7 []).getHash sizeHash) = none ∧
    ((addCall (spendOf 7 [0])).exec sizeHash erasedWallet).map
      (fun w => walletTx w.mapWallet ((spendOf 7 []).getHash sizeHash)) =
        some (some CWalletTx.init.toCTransaction) := by
  have hnone : walletTx erasedWallet.mapWallet ((spendOf 7 []).getHash sizeHash) = none := by
    decide
  refine ⟨(Option.some_get _).symm, fun h => ?_, by decide, hnone, by decide⟩
  obtain ⟨tx, htx, -⟩ := (h ⟨7, 0⟩ ((spendOf 7 []).getHash sizeHash)).mp (by decide)
  rw [hnone] at htx
  cases htx

end Ticoin
