import Ticoin.ReorderTransactions
import Ticoin.WalletBalance

/-!
# rpcwallet.cpp : the balances of accounts

`GetAccountBalance` adds up what the wallet's transactions and the accounting entries move into one
account, and `listaccounts` does so for all accounts at once. Both leave out transactions that are
not in the chain or the pool, and immature ones. `GetAccountBalance` leaves out those that are not
final as well, as `getbalance` does for all accounts together ; `listaccounts` counts them. The two
agree on an account exactly if these transactions move nothing on the whole (`listaccounts_iff`).
-/

namespace Ticoin

open Codec Ledger

namespace WalletView

variable (H : Bytes → UInt256) (hash160 : Bytes → UInt160) (s : WalletView)

/-! ## GetAccountBalance -/

/-- One received amount in the loop of `GetAccountAmounts`. -/
def addReceived (strAccount : Bytes) (nReceived : ℤ) (r : CTxDestination × ℤ) : ℤ :=
  match s.mapAddressBook r.1 with
  | some name => if name = strAccount then nReceived + r.2 else nReceived
  | none => if strAccount = [] then nReceived + r.2 else nReceived

structure AccountAmounts where
  nReceived : ℤ
  nSent : ℤ
  nFee : ℤ
  deriving DecidableEq

/-- `GetAccountAmounts`. -/
def getAccountAmounts (wtx : CWalletTx) (strAccount : Bytes) : Calc AccountAmounts := do
  let amounts ← s.getAmounts hash160 wtx
  return {
    nReceived := amounts.listReceived.foldl (s.addReceived strAccount) 0
    nSent := if strAccount = amounts.strSentAccount then
      amounts.listSent.foldl (fun nSent sent => nSent + sent.2) 0 else 0
    nFee := if strAccount = amounts.strSentAccount then amounts.nFee else 0 }

/-- `IsFinalTx` at the tip of the active chain. -/
def isFinal (wtx : CWalletTx) : Bool :=
  isFinalTx s.chainActive.height s.nAdjustedTime wtx.toCTransaction 0 0

/-- `GetAccountCreditDebit`. -/
def getAccountCreditDebit (acentries : List AccountingRecord) (strAccount : Bytes) : ℤ :=
  (listAccountCreditDebit strAccount acentries).foldl
    (fun nCreditDebit entry => nCreditDebit + entry.nCreditDebit.toInt) 0

/-- One transaction in the loop of `GetAccountBalance`. -/
def addAccountTx (strAccount : Bytes) (nMinDepth nBalance : ℤ) (wtx : CWalletTx) : Calc ℤ :=
  if !s.isFinal wtx ∨ s.getBlocksToMaturity H wtx > 0 ∨ s.getDepthInMainChain H wtx < 0 then
    .ok nBalance
  else do
    let amounts ← s.getAccountAmounts hash160 wtx strAccount
    let nReceived := if amounts.nReceived ≠ 0 ∧ s.getDepthInMainChain H wtx ≥ nMinDepth then
      amounts.nReceived else 0
    return nBalance + nReceived - (amounts.nSent + amounts.nFee)

/-- `GetAccountBalance`. -/
def getAccountBalance (acentries : List AccountingRecord) (strAccount : Bytes) (nMinDepth : ℤ) :
    Calc ℤ := do
  let nBalance ← s.txs.foldlM (s.addAccountTx H hash160 strAccount nMinDepth) 0
  return nBalance + getAccountCreditDebit acentries strAccount

end WalletView

/-! ## listaccounts -/

/-- A wallet with the entries of its address book, and the accounting entries of the database. -/
structure AccountsView extends WalletView where
  addresses : List (CTxDestination × Bytes)
  book : ∀ address name, mapAddressBook address = some name ↔ (address, name) ∈ addresses
  acentries : List AccountingRecord

/-- `mapAccountBalances`. -/
abbrev AccountBalances := Std.ExtTreeMap Bytes ℤ

/-- `mapAccountBalances[strAccount]`, which is made 0 if there is none. -/
def AccountBalances.at (m : AccountBalances) (strAccount : Bytes) : ℤ := m.getD strAccount 0

def AccountBalances.add (m : AccountBalances) (strAccount : Bytes) (n : ℤ) : AccountBalances :=
  m.insert strAccount (m.at strAccount + n)

theorem AccountBalances.at_add (m : AccountBalances) (account strAccount : Bytes) (n : ℤ) :
    (m.add account n).at strAccount = m.at strAccount + if account = strAccount then n else 0 := by
  unfold AccountBalances.add AccountBalances.at
  rw [Std.ExtTreeMap.getD_insert]
  by_cases h : account = strAccount
  · subst h
    rw [if_pos Std.ReflCmp.compare_self, if_pos rfl]
  · rw [if_neg fun heq => h (Std.LawfulEqOrd.eq_of_compare heq), if_neg h, add_zero]

namespace AccountsView

variable (H : Bytes → UInt256) (hash160 : Bytes → UInt160) (s : AccountsView)

/-- The account of an address, that of others being `""`. -/
def accountOf (address : CTxDestination) : Bytes := (s.mapAddressBook address).getD []

/-- The accounts of own addresses. -/
def ownAccounts : AccountBalances :=
  s.addresses.foldl (fun m entry =>
    if isMineDestination s.keystore entry.1 then m.insert entry.2 0 else m) ∅

/-- What a transaction moves in `listaccounts`. -/
def addAmounts (fReceived : Bool) (amounts : WalletView.Amounts) (m : AccountBalances) :
    AccountBalances :=
  let m := m.add amounts.strSentAccount (-amounts.nFee)
  let m := amounts.listSent.foldl (fun m sent => m.add amounts.strSentAccount (-sent.2)) m
  if fReceived then amounts.listReceived.foldl (fun m r => m.add (s.accountOf r.1) r.2) m else m

/-- One transaction in the loop of `listaccounts`. -/
def addTx (nMinDepth : ℤ) (m : AccountBalances) (wtx : CWalletTx) : Calc AccountBalances :=
  let nDepth := s.getDepthInMainChain H wtx
  if s.getBlocksToMaturity H wtx > 0 ∨ nDepth < 0 then .ok m
  else do
    let amounts ← s.getAmounts hash160 wtx
    return s.addAmounts (nDepth ≥ nMinDepth) amounts m

/-- `listaccounts`. -/
def listaccounts (nMinDepth : ℤ) : Calc AccountBalances := do
  let m ← s.txs.foldlM (s.addTx H hash160 nMinDepth) s.ownAccounts
  return (listAccountCreditDebit allAccounts s.acentries).foldl
    (fun m entry => m.add entry.strAccount entry.nCreditDebit.toInt) m

/-- The balance that `listaccounts` reports for an account, if it reports any. -/
def listedBalance (strAccount : Bytes) (nMinDepth : ℤ) : Option ℤ :=
  (s.listaccounts H hash160 nMinDepth).toOption.map fun m => m.at strAccount

/-! ## What a transaction moves -/

/-- What amounts move into an account. -/
def accountFlow (strAccount : Bytes) (fReceived : Bool) (amounts : WalletView.Amounts) : ℤ :=
  (if fReceived then
    (amounts.listReceived.map fun r => if s.accountOf r.1 = strAccount then r.2 else 0).sum
  else 0) -
    if amounts.strSentAccount = strAccount then (amounts.listSent.map Prod.snd).sum + amounts.nFee
    else 0

/-- The same of a transaction, or 0 if its amounts are out of range. -/
def flow (strAccount : Bytes) (nMinDepth : ℤ) (wtx : CWalletTx) : ℤ :=
  match s.getAmounts hash160 wtx with
  | .error _ => 0
  | .ok amounts => s.accountFlow strAccount (s.getDepthInMainChain H wtx ≥ nMinDepth) amounts

/-- Whether the amounts of a transaction are in range. -/
def inRange (wtx : CWalletTx) : Bool := (s.getAmounts hash160 wtx).isOk

/-- Transactions in the chain or the pool that are not immature. -/
def settled (wtx : CWalletTx) : Bool :=
  decide (s.getBlocksToMaturity H wtx ≤ 0) && decide (0 ≤ s.getDepthInMainChain H wtx)

/-- The transactions that `listaccounts` counts and `GetAccountBalance` does not. -/
def skipped : List CWalletTx := s.txs.filter fun wtx => s.settled H wtx && !s.isFinal wtx

/-- The accounting entries of other accounts. -/
def otherEntries (strAccount : Bytes) : List AccountingRecord :=
  s.acentries.filter fun entry => entry.strAccount ≠ strAccount

section

variable {H hash160 s} {strAccount : Bytes} {nMinDepth : ℤ} {wtx : CWalletTx}

theorem at_addAmounts (fReceived : Bool) (amounts : WalletView.Amounts) (m : AccountBalances) :
    (s.addAmounts fReceived amounts m).at strAccount =
      m.at strAccount + s.accountFlow strAccount fReceived amounts := by
  have hsent : ∀ m : AccountBalances, (amounts.listSent.foldl
      (fun m sent => m.add amounts.strSentAccount (-sent.2)) m).at strAccount = m.at strAccount +
        (amounts.listSent.map fun sent =>
          if amounts.strSentAccount = strAccount then -sent.2 else 0).sum :=
    total_foldl (fun m : AccountBalances => m.at strAccount) _
      (fun m sent => m.at_add amounts.strSentAccount strAccount (-sent.2)) amounts.listSent
  have hreceived : ∀ m : AccountBalances, (amounts.listReceived.foldl
      (fun m r => m.add (s.accountOf r.1) r.2) m).at strAccount = m.at strAccount +
        (amounts.listReceived.map fun r => if s.accountOf r.1 = strAccount then r.2 else 0).sum :=
    total_foldl (fun m : AccountBalances => m.at strAccount) _
      (fun m r => m.at_add (s.accountOf r.1) strAccount r.2) amounts.listReceived
  have hneg : (amounts.listSent.map fun sent =>
      if amounts.strSentAccount = strAccount then -sent.2 else 0).sum =
        -if amounts.strSentAccount = strAccount then (amounts.listSent.map Prod.snd).sum
          else 0 := by
    split
    · rw [List.sum_neg, List.map_map]
      rfl
    · simp
  have hflow : (s.addAmounts fReceived amounts m).at strAccount =
      ((amounts.listSent.foldl (fun m sent => m.add amounts.strSentAccount (-sent.2))
        (m.add amounts.strSentAccount (-amounts.nFee))).at strAccount) +
      if fReceived then
        (amounts.listReceived.map fun r => if s.accountOf r.1 = strAccount then r.2 else 0).sum
      else 0 := by
    unfold addAmounts
    cases fReceived with
    | true => exact hreceived _
    | false => exact (add_zero _).symm
  rw [hflow, hsent, hneg, AccountBalances.at_add]
  unfold accountFlow
  by_cases hacc : amounts.strSentAccount = strAccount
  · simp only [if_pos hacc]
    ring
  · simp only [if_neg hacc]
    ring

theorem addReceived_eq (nReceived : ℤ) (r : CTxDestination × ℤ) :
    s.addReceived strAccount nReceived r =
      nReceived + if s.accountOf r.1 = strAccount then r.2 else 0 := by
  unfold WalletView.addReceived accountOf
  cases s.mapAddressBook r.1 with
  | some name =>
    by_cases h : name = strAccount <;> simp [h]
  | none =>
    by_cases h : strAccount = []
    · simp [h]
    · simp [h, Ne.symm h]

theorem foldl_addReceived (listReceived : List (CTxDestination × ℤ)) :
    listReceived.foldl (s.addReceived strAccount) 0 =
      (listReceived.map fun r => if s.accountOf r.1 = strAccount then r.2 else 0).sum :=
  (total_foldl id _ addReceived_eq listReceived 0).trans (zero_add _)

theorem foldl_sent (listSent : List (CTxDestination × ℤ)) :
    listSent.foldl (fun nSent sent => nSent + sent.2) 0 = (listSent.map Prod.snd).sum :=
  (total_foldl id Prod.snd (fun _ _ => rfl) listSent (0 : ℤ)).trans (zero_add _)

theorem not_settled (h : s.settled H wtx = false) :
    s.getBlocksToMaturity H wtx > 0 ∨ s.getDepthInMainChain H wtx < 0 := by
  unfold settled at h
  rw [Bool.and_eq_false_iff, decide_eq_false_iff_not, decide_eq_false_iff_not] at h
  omega

theorem settled_iff : s.settled H wtx = true ↔
    ¬(s.getBlocksToMaturity H wtx > 0 ∨ s.getDepthInMainChain H wtx < 0) := by
  unfold settled
  rw [Bool.and_eq_true, decide_eq_true_iff, decide_eq_true_iff]
  omega

/-- One transaction of `listaccounts`. -/
theorem addTx_at (m : AccountBalances) (wtx : CWalletTx) :
    (s.addTx H hash160 nMinDepth m wtx).toOption.map (fun m => m.at strAccount) =
      if !s.settled H wtx || s.inRange hash160 wtx then
        some (m.at strAccount + if s.settled H wtx then s.flow H hash160 strAccount nMinDepth wtx
          else 0)
      else none := by
  unfold addTx inRange flow
  dsimp only
  cases hsettled : s.settled H wtx with
  | false =>
    rw [if_pos (not_settled hsettled)]
    simp [Except.toOption]
  | true =>
    rw [if_neg (settled_iff.mp hsettled)]
    cases s.getAmounts hash160 wtx with
    | error e => rfl
    | ok amounts =>
      exact congrArg some (at_addAmounts _ amounts m)

/-- One transaction of `GetAccountBalance`. -/
theorem addAccountTx_eq (nBalance : ℤ) (wtx : CWalletTx) :
    (s.addAccountTx H hash160 strAccount nMinDepth nBalance wtx).toOption.map id =
      if !(s.settled H wtx && s.isFinal wtx) || s.inRange hash160 wtx then
        some (nBalance + if s.settled H wtx && s.isFinal wtx then
          s.flow H hash160 strAccount nMinDepth wtx else 0)
      else none := by
  unfold WalletView.addAccountTx inRange flow
  cases hcounted : s.settled H wtx && s.isFinal wtx with
  | false =>
    rw [Bool.and_eq_false_iff] at hcounted
    rw [if_pos]
    · simp [Except.toOption]
    · rcases hcounted with hsettled | hfinal
      · exact .inr (not_settled hsettled)
      · exact .inl (by rw [hfinal]; rfl)
  | true =>
    obtain ⟨hsettled, hfinal⟩ := Bool.and_eq_true_iff.mp hcounted
    have hnot : ¬((!s.isFinal wtx) = true ∨ s.getBlocksToMaturity H wtx > 0 ∨
        s.getDepthInMainChain H wtx < 0) := by
      rw [hfinal]
      rintro (h | h)
      · cases h
      · exact settled_iff.mp hsettled h
    rw [if_neg hnot]
    unfold WalletView.getAccountAmounts
    cases s.getAmounts hash160 wtx with
    | error e => rfl
    | ok amounts =>
      have hreceived : ∀ nReceived : ℤ,
          (if nReceived ≠ 0 ∧ s.getDepthInMainChain H wtx ≥ nMinDepth then nReceived else 0) =
            if decide (s.getDepthInMainChain H wtx ≥ nMinDepth) = true then nReceived else 0 := by
        intro nReceived
        by_cases hzero : nReceived = 0
        · simp [hzero]
        · simp [hzero]
      refine congrArg some ?_
      unfold accountFlow
      simp only [foldl_addReceived, foldl_sent, hreceived, eq_comm (a := strAccount), if_true, id]
      by_cases hacc : amounts.strSentAccount = strAccount
      · simp only [if_pos hacc]
        ring
      · simp only [if_neg hacc]
        ring

theorem sum_entries (entries : List AccountingRecord) :
    WalletView.getAccountCreditDebit entries strAccount =
      ((listAccountCreditDebit strAccount entries).map fun entry => entry.nCreditDebit.toInt).sum :=
  (total_foldl id _ (fun _ _ => rfl) _ (0 : ℤ)).trans (zero_add _)

theorem at_entries (m : AccountBalances) :
    ((listAccountCreditDebit allAccounts s.acentries).foldl
      (fun m entry => m.add entry.strAccount entry.nCreditDebit.toInt) m).at strAccount =
      m.at strAccount + WalletView.getAccountCreditDebit s.acentries strAccount -
        if strAccount = allAccounts then
          ((s.otherEntries allAccounts).map fun entry => entry.nCreditDebit.toInt).sum else 0 := by
  have hall : listAccountCreditDebit allAccounts s.acentries = s.acentries := if_pos rfl
  have hfold := total_foldl (fun m : AccountBalances => m.at strAccount) _
    (fun m (entry : AccountingRecord) =>
      m.at_add entry.strAccount strAccount entry.nCreditDebit.toInt) s.acentries m
  rw [hall, hfold, sum_entries, add_sub_assoc]
  refine congrArg (m.at strAccount + ·) ?_
  unfold listAccountCreditDebit otherEntries
  split
  · rename_i hacc
    subst hacc
    rw [sum_map_filter, eq_sub_iff_add_eq, ← List.sum_map_add]
    refine congrArg List.sum (List.map_congr_left fun entry _ => ?_)
    by_cases hentry : entry.strAccount = allAccounts <;> simp [hentry]
  · rw [sum_map_filter, sub_zero]
    simp

theorem at_ownAccounts : s.ownAccounts.at strAccount = 0 := by
  unfold ownAccounts
  refine List.foldlRecOn (motive := fun m : AccountBalances => m.at strAccount = 0) _ _ rfl
    fun m hm entry _ => ?_
  split
  · unfold AccountBalances.at at hm ⊢
    rw [Std.ExtTreeMap.getD_insert]
    split
    · rfl
    · exact hm
  · exact hm

end

/-! ## The two balances -/

/-- What `listaccounts` reports. -/
theorem listedBalance_eq (strAccount : Bytes) (nMinDepth : ℤ) :
    s.listedBalance H hash160 strAccount nMinDepth =
      if s.txs.all fun wtx => !s.settled H wtx || s.inRange hash160 wtx then
        some ((s.txs.map fun wtx =>
            if s.settled H wtx then s.flow H hash160 strAccount nMinDepth wtx else 0).sum +
          WalletView.getAccountCreditDebit s.acentries strAccount -
          if strAccount = allAccounts then
            ((s.otherEntries allAccounts).map fun entry => entry.nCreditDebit.toInt).sum else 0)
      else none := by
  have hfold : (s.txs.foldlM (s.addTx H hash160 nMinDepth) s.ownAccounts).toOption.map
      (fun m => m.at strAccount) = _ :=
    toOption_foldlM (fun m : AccountBalances => m.at strAccount) _ _ addTx_at s.txs s.ownAccounts
  rw [at_ownAccounts, zero_add] at hfold
  unfold listedBalance listaccounts
  cases hm : s.txs.foldlM (s.addTx H hash160 nMinDepth) s.ownAccounts with
  | error e =>
    rw [hm] at hfold
    split
    · rename_i hall
      rw [if_pos hall] at hfold
      cases hfold
    · rfl
  | ok m =>
    rw [hm] at hfold
    split
    · rename_i hall
      rw [if_pos hall] at hfold
      have hat : m.at strAccount = _ := Option.some.inj hfold
      rw [← hat]
      exact congrArg some (at_entries m)
    · rename_i hall
      rw [if_neg hall] at hfold
      cases hfold

/-- What `GetAccountBalance` returns. -/
theorem getAccountBalance_eq (strAccount : Bytes) (nMinDepth : ℤ) :
    (s.getAccountBalance H hash160 s.acentries strAccount nMinDepth).toOption =
      if s.txs.all fun wtx => !(s.settled H wtx && s.isFinal wtx) || s.inRange hash160 wtx then
        some ((s.txs.map fun wtx => if s.settled H wtx && s.isFinal wtx then
            s.flow H hash160 strAccount nMinDepth wtx else 0).sum +
          WalletView.getAccountCreditDebit s.acentries strAccount)
      else none := by
  have hfold : (s.txs.foldlM (s.addAccountTx H hash160 strAccount nMinDepth) 0).toOption.map id =
      _ := toOption_foldlM id _ _ addAccountTx_eq s.txs 0
  rw [Option.map_id_fun, id, id, zero_add] at hfold
  unfold WalletView.getAccountBalance
  cases hn : s.txs.foldlM (s.addAccountTx H hash160 strAccount nMinDepth) 0 with
  | error e =>
    rw [hn] at hfold
    split
    · rename_i hall
      rw [if_pos hall] at hfold
      cases hfold
    · rfl
  | ok n =>
    rw [hn] at hfold
    split
    · rename_i hall
      rw [if_pos hall] at hfold
      rw [← Option.some.inj hfold]
      rfl
    · rename_i hall
      rw [if_neg hall] at hfold
      cases hfold

theorem sum_settled (f : CWalletTx → ℤ) :
    (s.txs.map fun wtx => if s.settled H wtx then f wtx else 0).sum =
      (s.txs.map fun wtx => if s.settled H wtx && s.isFinal wtx then f wtx else 0).sum +
        ((s.skipped H).map f).sum := by
  unfold skipped
  rw [sum_map_filter, ← List.sum_map_add]
  refine congrArg List.sum (List.map_congr_left fun wtx _ => ?_)
  cases s.settled H wtx <;> cases s.isFinal wtx <;> simp

/-- `listaccounts` reports the balance that `GetAccountBalance` returns exactly if what the
transactions move that only `listaccounts` counts comes to nothing, or both fail. No account has the
name `"*"`, for which `GetAccountBalance` adds the accounting entries of all accounts. -/
theorem listaccounts_iff (strAccount : Bytes) (nMinDepth : ℤ) :
    s.listedBalance H hash160 strAccount nMinDepth =
        (s.getAccountBalance H hash160 s.acentries strAccount nMinDepth).toOption ↔
      (∃ wtx ∈ s.txs, s.settled H wtx ∧ s.isFinal wtx ∧ ¬s.inRange hash160 wtx) ∨
      (∀ wtx ∈ s.skipped H, s.inRange hash160 wtx) ∧
        ((s.skipped H).map (s.flow H hash160 strAccount nMinDepth)).sum =
          if strAccount = allAccounts then
            ((s.otherEntries allAccounts).map fun entry => entry.nCreditDebit.toInt).sum
          else 0 := by
  have hcounted : (∀ wtx ∈ s.txs,
        (!(s.settled H wtx && s.isFinal wtx) || s.inRange hash160 wtx) = true) ↔
      ¬∃ wtx ∈ s.txs, s.settled H wtx ∧ s.isFinal wtx ∧ ¬s.inRange hash160 wtx := by
    simp only [not_exists, not_and, not_not]
    refine forall₂_congr fun wtx _ => ?_
    cases s.settled H wtx <;> cases s.isFinal wtx <;> simp
  have hlisted : (∀ wtx ∈ s.txs, (!s.settled H wtx || s.inRange hash160 wtx) = true) ↔
      (∀ wtx ∈ s.txs, (!(s.settled H wtx && s.isFinal wtx) || s.inRange hash160 wtx) = true) ∧
      ∀ wtx ∈ s.skipped H, s.inRange hash160 wtx := by
    unfold skipped
    simp only [List.mem_filter, and_imp, ← forall₂_and]
    refine forall₂_congr fun wtx _ => ?_
    cases s.settled H wtx <;> cases s.isFinal wtx <;> simp
  rw [listedBalance_eq, getAccountBalance_eq]
  simp only [List.all_eq_true, hlisted]
  by_cases hfail : ∃ wtx ∈ s.txs, s.settled H wtx ∧ s.isFinal wtx ∧ ¬s.inRange hash160 wtx
  · have hnot := fun hall => hcounted.mp hall hfail
    rw [if_neg fun hall => hnot hall.1, if_neg hnot]
    exact iff_of_true rfl (.inl hfail)
  · have hall := hcounted.mpr hfail
    rw [if_pos hall]
    by_cases hskipped : ∀ wtx ∈ s.skipped H, s.inRange hash160 wtx
    · rw [if_pos ⟨hall, hskipped⟩, Option.some.injEq, sum_settled]
      refine ⟨fun h => .inr ⟨hskipped, by linarith⟩, fun h => ?_⟩
      obtain ⟨-, hsum⟩ := h.resolve_left hfail
      linarith
    · rw [if_neg fun h => hskipped h.2]
      exact iff_of_false nofun fun h => hskipped (h.resolve_left hfail).1

end AccountsView

/-- A payment to the wallet that is locked until a height. -/
def lockedPayment (nLockTime : UInt32) : CWalletTx := { pollPayment 0 with nLockTime := nLockTime }

/-- A wallet with such a payment in the pool, the chain having the height 2. -/
def lockedView (nLockTime : UInt32) : AccountsView where
  toWalletView := { pollView 0 with
    wallet := {
      fFileBacked := true
      mapWallet := (∅ : MapWallet).insert 7 (lockedPayment nLockTime) }
    mempoolExists := fun _ => true }
  addresses := []
  book := fun _ _ => iff_of_false nofun nofun
  acentries := []

theorem lockedView_flow (nLockTime : UInt32) (hdepth : 0 ≤
      (lockedView nLockTime).getDepthInMainChain (fun _ => 7) (lockedPayment nLockTime)) :
    (lockedView nLockTime).inRange (fun _ => 0) (lockedPayment nLockTime) = true ∧
      (lockedView nLockTime).flow (fun _ => 7) (fun _ => 0) [] 0 (lockedPayment nLockTime) = 5 := by
  obtain ⟨hmine, hdest⟩ : (lockedView nLockTime).isMineOut (fun _ => 0) pollOut = true ∧ _ :=
    isMineOut_pollOut 0
  have hadd : (lockedView nLockTime).addAmount (fun _ => 0) 0 ⟨[], [], 0, []⟩ pollOut =
      ⟨[(.keyID 0, 5)], [], 0, []⟩ := by
    simp only [WalletView.addAmount, hmine, hdest]
    rfl
  have hamounts : (lockedView nLockTime).getAmounts (fun _ => 0) (lockedPayment nLockTime) =
      .ok ⟨[(.keyID 0, 5)], [], 0, []⟩ := by
    rw [← hadd]
    rfl
  unfold AccountsView.inRange AccountsView.flow
  rw [hamounts]
  refine ⟨rfl, ?_⟩
  dsimp only
  rw [decide_eq_true hdepth]
  rfl

/-- A payment in the pool that can be in the next block, but is not final at the tip. -/
theorem listaccounts_differs : ¬∀ (H : Bytes → UInt256) (hash160 : Bytes → UInt160)
    (s : AccountsView) (strAccount : Bytes) (nMinDepth : ℤ), strAccount ≠ allAccounts →
      s.listedBalance H hash160 strAccount nMinDepth =
        (s.getAccountBalance H hash160 s.acentries strAccount nMinDepth).toOption := by
  intro h
  have heq := h (fun _ => 7) (fun _ => 0) (lockedView 2) [] 0 (by decide)
  have htxs : (lockedView 2).txs = [lockedPayment 2] := by decide
  have hsettled : (lockedView 2).settled (fun _ => 7) (lockedPayment 2) = true := by
    decide
  have hfinal : (lockedView 2).isFinal (lockedPayment 2) = false := by decide
  obtain ⟨hrange, hflow⟩ := lockedView_flow 2 (by decide)
  rw [AccountsView.listedBalance_eq, AccountsView.getAccountBalance_eq, htxs] at heq
  simp only [List.all_cons, List.all_nil, List.map_cons, List.map_nil, hsettled, hfinal, hrange,
    hflow] at heq
  exact absurd heq (by decide)

end Ticoin
