import Ticoin.Lib.Ledger
import Ticoin.ListSinceBlock

/-!
# rpcwallet.cpp : the two balances

`GetBalance` adds up the unspent own outputs of trusted transactions. `getbalance "*" 0` adds
up what trusted and mature transactions received, less what they sent and their fees. A
comment promises the same number.

Both count the same transactions, but a coin is spent for the first as soon as any transaction
in the chain or the pool spends it, and for the second when a counted one does. The totals
differ by the coins that cross this border (`getbalance_iff`) : own coins of counted
transactions that others spend, and own coins of others that counted transactions spend. An
output to a script of the wallet whose keys are not all its own makes a difference too, since
it passes for change.
-/

namespace Ticoin

open Codec Ledger

namespace WalletView

variable (H : Bytes → UInt256) (hash160 : Bytes → UInt160) (s : WalletView)

/-! ## GetBalance and getbalance -/

/-- `CWallet::GetBalance`. -/
def getBalance : Calc ℤ :=
  s.wallet.mapWallet.toList.foldlM (fun nTotal pcoin => do
    if ← s.isTrusted H hash160 pcoin.2 then
      let nCredit ← s.getAvailableCredit H hash160 pcoin.2
      return nTotal + nCredit
    else return nTotal) 0

/-- What a transaction adds to the balance of all accounts. -/
def Amounts.flow (amounts : Amounts) (fReceived : Bool) : ℤ :=
  (if fReceived then (amounts.listReceived.map Prod.snd).sum else 0) -
    (amounts.listSent.map Prod.snd).sum - amounts.nFee

/-- The loop of `getbalance` for all accounts. -/
def getBalanceAll (nMinDepth : ℤ) : Calc ℤ :=
  s.wallet.mapWallet.toList.foldlM (fun nBalance wtx => do
    if !(← s.isTrusted H hash160 wtx.2) ∨ s.getBlocksToMaturity H wtx.2 > 0 then return nBalance
    else
      let amounts ← s.getAmounts hash160 wtx.2
      return nBalance + amounts.flow (s.getDepthInMainChain H wtx.2 ≥ nMinDepth)) 0

/-- `getbalance` with the parameters that were given : an account, `"*"` for all of them, and
a depth. The balance of one account is `accountBalance`. -/
def getbalance (accountBalance : Bytes → ℤ → Calc ℤ) : Option (Bytes × Option ℤ) → Calc ℤ
  | none => s.getBalance H hash160
  | some (account, nMinDepth) =>
    if account = allAccounts then s.getBalanceAll H hash160 (nMinDepth.getD 1)
    else accountBalance account (nMinDepth.getD 1)

/-! ## Values of coins -/

/-- The value of an output if it is own. -/
def ownValue (txout : CTxOut) : ℤ := if s.isMineOut hash160 txout then txout.nValue.toInt else 0

/-- The own value at an outpoint of a wallet transaction. -/
def coinValue (outpoint : COutPoint) : ℤ :=
  match s.wallet.mapWallet[outpoint.hash]?.bind fun prev => prev.vout[outpoint.n.toNat]? with
  | none => 0
  | some txout => s.ownValue hash160 txout

/-- The own coins a transaction spends. -/
def debit (wtx : CWalletTx) : ℤ := (wtx.vin.map fun txin => s.coinValue hash160 txin.prevout).sum

/-- The outputs that pass for change and are not own, of a transaction that spends own coins. -/
def partlyOwned (wtx : CWalletTx) : ℤ :=
  if s.debit hash160 wtx > 0 then
    (wtx.vout.map fun txout => if s.isChange hash160 txout then
      txout.nValue.toInt - s.ownValue hash160 txout else 0).sum
  else 0

/-- Transactions that count in a balance. -/
def counted (wtx : CWalletTx) : Bool :=
  decide (s.isTrusted H hash160 wtx = .ok true) && decide (s.getBlocksToMaturity H wtx ≤ 0)

/-- The own coins of counted transactions, of those a transaction spends. -/
def debitFrom (p : CWalletTx → Bool) (wtx : CWalletTx) : ℤ :=
  (wtx.vin.map fun txin =>
    if s.wallet.mapWallet[txin.prevout.hash]?.any p then s.coinValue hash160 txin.prevout else 0).sum

/-- The transactions of the wallet. -/
def txs : List CWalletTx := s.wallet.mapWallet.toList.map Prod.snd

/-- What holds of a wallet next to a chain and a pool of valid transactions : `mapTxSpends` is
exact, transactions are under their hashes, and of those in the chain or the pool amounts are in
range, inputs spend outputs that there are, and no output is spent twice. -/
structure Consistent : Prop where
  spends : SpendIndex s.wallet
  keyed : s.Keyed H
  size : ∀ wtx ∈ s.txs, wtx.vout.length < 2 ^ 32 - 1
  value : ∀ wtx ∈ s.txs, 0 ≤ s.getDepthInMainChain H wtx → ∃ nValueOut, wtx.getValueOut = .ok nValueOut
  debit : ∀ wtx ∈ s.txs, 0 ≤ s.getDepthInMainChain H wtx →
    ∃ nDebit, s.getDebit hash160 wtx.toCTransaction = .ok nDebit
  prevout : ∀ wtx ∈ s.txs, 0 ≤ s.getDepthInMainChain H wtx → wtx.isCoinBase = false →
    ∀ txin ∈ wtx.vin, ∀ parent : CWalletTx,
      s.wallet.mapWallet[txin.prevout.hash]? = some parent →
      txin.prevout.n.toNat < parent.vout.length
  distinct : ∀ wtx ∈ s.txs, 0 ≤ s.getDepthInMainChain H wtx → (wtx.vin.map CTxIn.prevout).Nodup
  once : ∀ wtx ∈ s.txs, ∀ wtx' ∈ s.txs, 0 ≤ s.getDepthInMainChain H wtx →
    0 ≤ s.getDepthInMainChain H wtx' →
    ∀ outpoint : COutPoint, wtx.toCTransaction.Spends outpoint →
      wtx'.toCTransaction.Spends outpoint → wtx = wtx'

/-! ## One transaction -/

section

variable {H hash160 s} {wtx : CWalletTx}

theorem mem_txs : wtx ∈ s.txs ↔ ∃ hash : UInt256, s.wallet.mapWallet[hash]? = some wtx := by
  simp only [txs, List.mem_map, Prod.exists, exists_eq_right,
    Std.ExtTreeMap.mem_toList_iff_getElem?_eq_some]

theorem debitOf_eq (txin : CTxIn) : s.debitOf hash160 txin = s.coinValue hash160 txin.prevout := rfl

/-- What `GetDebit` returns, if it does. -/
theorem debit_eq {nDebit : ℤ} (h : s.getDebit hash160 wtx.toCTransaction = .ok nDebit) :
    nDebit = s.debit hash160 wtx ∧ 0 ≤ nDebit := by
  have hstep : ∀ (n : ℤ) (txin : CTxIn) (m : ℤ), addInRange
      "CWallet::GetDebit() : value out of range" n (s.debitOf hash160 txin) = .ok m →
      m = n + s.debitOf hash160 txin ∧ 0 ≤ m := by
    intro n txin m hm
    rw [addInRange] at hm
    split at hm
    · rename_i hrange
      cases hm
      exact ⟨rfl, hrange.1⟩
    · cases hm
  refine ⟨(eq_add_sum_of_foldlM (fun txin => s.debitOf hash160 txin)
    (fun n x m hm => (hstep n x m hm).1) h).trans (zero_add _), ?_⟩
  refine Machine.invariant_of_steps (P := (0 ≤ ·)) ?_ (Machine.steps_of_foldlM _ h) (le_refl 0)
  rintro n m - ⟨x, hx⟩
  exact (hstep n x m hx).2

theorem ownValue_bounds {txout : CTxOut} (h : MoneyRange txout.nValue.toInt) :
    0 ≤ s.ownValue hash160 txout ∧ s.ownValue hash160 txout ≤ txout.nValue.toInt := by
  rw [ownValue]
  split
  · exact ⟨h.1, le_refl _⟩
  · exact ⟨le_refl _, h.1⟩

variable (H hash160 s) in
/-- The own outputs of a transaction, less those that are spent. -/
def unspentOwn (wtx : CWalletTx) : ℤ :=
  (wtx.vout.zipIdx.map fun out =>
    if s.isSpent H (wtx.getHash H) (.ofNat out.2) then 0 else s.ownValue hash160 out.1).sum

theorem sum_zipIdx_le {l : List CTxOut} {f : CTxOut × ℕ → ℤ}
    (h : ∀ out ∈ l.zipIdx, f out ≤ out.1.nValue.toInt) :
    (l.zipIdx.map f).sum ≤ (l.map fun txout => txout.nValue.toInt).sum := by
  have hfst : (l.map fun txout => txout.nValue.toInt) =
      l.zipIdx.map fun out => out.1.nValue.toInt := by
    conv_lhs => rw [← List.zipIdx_map_fst 0 l]
    rw [List.map_map]
    rfl
  rw [hfst]
  exact List.sum_le_sum h

/-- The available credit of a transaction that is mature is what is not spent. -/
theorem getAvailableCredit_eq {nValueOut : ℤ} (hvalue : wtx.getValueOut = .ok nValueOut)
    (hmature : s.getBlocksToMaturity H wtx ≤ 0) :
    s.getAvailableCredit H hash160 wtx = .ok (s.unspentOwn H hash160 wtx) := by
  obtain ⟨hsum, hrange, hmax⟩ := value_of_getValueOut hvalue
  have hbounds : ∀ out ∈ wtx.vout.zipIdx, ∀ b : Bool,
      0 ≤ (if b then 0 else s.ownValue hash160 out.1) ∧
        (if b then 0 else s.ownValue hash160 out.1) ≤ out.1.nValue.toInt := by
    intro out hmem b
    have hout := hrange _ (List.fst_mem_of_mem_zipIdx hmem)
    cases b with
    | true => exact ⟨le_refl 0, hout.1⟩
    | false => exact ownValue_bounds hout
  rw [getAvailableCredit, if_neg fun hc => absurd hc.2 (not_lt.mpr hmature)]
  refine (foldlM_of_bounded (fun out : CTxOut × ℕ =>
    if s.isSpent H (wtx.getHash H) (.ofNat out.2) then 0 else s.ownValue hash160 out.1) MAX_MONEY
      ?_ (le_refl 0) (fun out hmem => (hbounds out hmem _).1) ?_).trans (by rw [zero_add]; rfl)
  · intro out hmem n hn hle
    have hpos := (hbounds out hmem (s.isSpent H (wtx.getHash H) (.ofNat out.2))).1
    rw [addAvailable]
    split
    · rw [add_zero]
    · rename_i hspent
      rw [if_neg hspent] at hle hpos
      rw [getCreditOut, if_neg (not_not.mpr (hrange _ (List.fst_mem_of_mem_zipIdx hmem)))]
      exact if_pos ⟨add_nonneg hn hpos, hle⟩
  · rw [zero_add]
    exact (sum_zipIdx_le fun out hmem => (hbounds out hmem _).2).trans (hsum ▸ hmax)

/-! ## Trust and maturity -/

/-- The input of a coinbase names no output of a wallet transaction. -/
theorem coinValue_of_isCoinBase (h : s.Consistent H hash160) (hcb : wtx.isCoinBase = true) :
    ∀ txin ∈ wtx.vin, s.coinValue hash160 txin.prevout = 0 := by
  intro txin hmem
  rw [CTransaction.isCoinBase] at hcb
  split at hcb
  · rename_i txin' hvin
    rw [hvin, List.mem_singleton] at hmem
    subst hmem
    rw [COutPoint.isNull, Bool.and_eq_true, beq_iff_eq, beq_iff_eq] at hcb
    rw [coinValue, hcb.2]
    cases hprev : s.wallet.mapWallet[txin.prevout.hash]? with
    | none => rfl
    | some prev =>
      have hsize := h.size prev (mem_txs.mpr ⟨_, hprev⟩)
      rw [Option.bind_some, List.getElem?_eq_none (by exact hsize.le)]
  · cases hcb

theorem debit_of_isCoinBase (h : s.Consistent H hash160) (hcb : wtx.isCoinBase = true) :
    s.debit hash160 wtx = 0 := by
  rw [debit, List.map_congr_left (coinValue_of_isCoinBase h hcb)]
  simp

theorem depth_of_isTrusted (h : s.isTrusted H hash160 wtx = .ok true) :
    0 ≤ s.getDepthInMainChain H wtx := by
  by_contra hdepth
  rw [isTrusted] at h
  split at h
  · cases h
  · dsimp only at h
    rw [if_neg (by omega), if_pos (by omega)] at h
    cases h

theorem inputsTrusted_ok {vin : List CTxIn} (h : ∀ txin ∈ vin, ∀ parent : CWalletTx,
    s.wallet.mapWallet[txin.prevout.hash]? = some parent →
      txin.prevout.n.toNat < parent.vout.length) : ∃ b, s.inputsTrusted hash160 vin = .ok b := by
  induction vin with
  | nil => exact ⟨_, rfl⟩
  | cons txin vin ih =>
    rw [inputsTrusted]
    split
    · exact ⟨_, rfl⟩
    · rename_i parent hparent
      rw [List.getElem?_eq_getElem (h txin List.mem_cons_self parent hparent)]
      dsimp only
      split
      · exact ⟨_, rfl⟩
      · exact ih fun txin' hmem => h txin' (List.mem_cons_of_mem txin hmem)

/-- `IsTrusted` returns. -/
theorem isTrusted_ok (h : s.Consistent H hash160) (hwtx : wtx ∈ s.txs) :
    ∃ b, s.isTrusted H hash160 wtx = .ok b := by
  rw [isTrusted]
  split
  · exact ⟨_, rfl⟩
  dsimp only
  split
  · exact ⟨_, rfl⟩
  split
  · exact ⟨_, rfl⟩
  rename_i hdepth
  split
  · exact ⟨_, rfl⟩
  obtain ⟨nDebit, hdebit⟩ := h.debit wtx hwtx (not_lt.mp hdepth)
  rw [hdebit]
  change ∃ b, (if ¬nDebit > 0 then Except.ok false else s.inputsTrusted hash160 wtx.vin) = .ok b
  split
  · exact ⟨_, rfl⟩
  rename_i hpos
  refine inputsTrusted_ok (h.prevout wtx hwtx (not_lt.mp hdepth) ?_)
  by_contra hcb
  rw [(debit_eq hdebit).1, debit_of_isCoinBase h (Bool.not_eq_false _ ▸ hcb)] at hpos
  exact hpos (lt_irrefl 0)

/-- A transaction that is trusted but not mature is a coinbase, with no credit. -/
theorem getAvailableCredit_of_immature (h : ¬s.getBlocksToMaturity H wtx ≤ 0) :
    s.getAvailableCredit H hash160 wtx = .ok 0 := by
  rw [getAvailableCredit, if_pos]
  refine ⟨?_, not_le.mp h⟩
  by_contra hcb
  rw [getBlocksToMaturity, if_pos (by simpa using hcb)] at h
  exact h (le_refl 0)

end

/-! ## The two sums -/

section

variable {H hash160 s} {wtx : CWalletTx}

/-- What the wallet's counted transactions add to a total is the sum over them. -/
theorem foldlM_counted {step : ℤ → UInt256 × CWalletTx → Calc ℤ} (value : CWalletTx → ℤ)
    (h : ∀ wtx ∈ s.txs, ∀ (hash : UInt256) (n : ℤ),
      step n (hash, wtx) = .ok (n + if s.counted H hash160 wtx then value wtx else 0)) :
    s.wallet.mapWallet.toList.foldlM step 0 =
      .ok ((s.txs.filter (s.counted H hash160)).map value).sum := by
  rw [foldlM_of_add (fun item : UInt256 × CWalletTx =>
    if s.counted H hash160 item.2 then value item.2 else 0) fun item hmem n =>
      h item.2 (List.mem_map_of_mem hmem) item.1 n, zero_add, sum_map_filter, txs, List.map_map]
  rfl

theorem counted_iff : s.counted H hash160 wtx = true ↔
    s.isTrusted H hash160 wtx = .ok true ∧ s.getBlocksToMaturity H wtx ≤ 0 := by
  rw [counted, Bool.and_eq_true, decide_eq_true_iff, decide_eq_true_iff]

theorem depth_of_counted (h : s.counted H hash160 wtx = true) : 0 ≤ s.getDepthInMainChain H wtx :=
  depth_of_isTrusted (counted_iff.mp h).1

theorem getBalance_eq (h : s.Consistent H hash160) : s.getBalance H hash160 =
    .ok ((s.txs.filter (s.counted H hash160)).map (s.unspentOwn H hash160)).sum := by
  refine foldlM_counted _ fun wtx hwtx hash n => ?_
  obtain ⟨b, hb⟩ := isTrusted_ok h hwtx
  cases b with
  | false => simp [hb, counted, bind, Except.bind, pure, Except.pure]
  | true =>
    by_cases hmature : s.getBlocksToMaturity H wtx ≤ 0
    · obtain ⟨nValueOut, hvalue⟩ := h.value wtx hwtx (depth_of_isTrusted hb)
      rw [if_pos (counted_iff.mpr ⟨hb, hmature⟩), hb]
      simp [getAvailableCredit_eq hvalue hmature, bind, Except.bind, pure, Except.pure]
    · rw [if_neg fun hc => hmature (counted_iff.mp hc).2, hb]
      simp [getAvailableCredit_of_immature hmature, bind, Except.bind, pure, Except.pure]

variable (hash160 s) in
/-- What an output adds to the balance of all accounts. -/
def netValue (nDebit : ℤ) (txout : CTxOut) : ℤ :=
  if nDebit > 0 then
    if s.isChange hash160 txout then 0 else s.ownValue hash160 txout - txout.nValue.toInt
  else s.ownValue hash160 txout

theorem flow_addAmount (nDebit : ℤ) (amounts : Amounts) (txout : CTxOut) :
    (s.addAmount hash160 nDebit amounts txout).flow true =
      amounts.flow true + s.netValue hash160 nDebit txout := by
  rw [addAmount, netValue, ownValue]
  by_cases hdebit : nDebit > 0
  · by_cases hchange : s.isChange hash160 txout = true
    · rw [if_pos ⟨hdebit, hchange⟩, if_pos hdebit, if_pos hchange, add_zero]
    · rw [if_neg fun hc => hchange hc.2, if_neg fun hc => hc.1 hdebit, if_pos hdebit,
        if_neg hchange]
      cases hmine : s.isMineOut hash160 txout with
      | true => simp [Amounts.flow, hdebit]
      | false => simp [Amounts.flow, hdebit]; ring
  · rw [if_neg fun hc => hdebit hc.1, if_neg hdebit]
    cases hmine : s.isMineOut hash160 txout with
    | true => simp [Amounts.flow, hdebit]; ring
    | false => simp [hdebit]

/-- The flow of a transaction in the chain or the pool. -/
theorem getAmounts_flow (h : s.Consistent H hash160) (hwtx : wtx ∈ s.txs)
    (hdepth : 0 ≤ s.getDepthInMainChain H wtx) : ∃ amounts, s.getAmounts hash160 wtx = .ok amounts ∧
      amounts.flow true = (wtx.vout.map (s.ownValue hash160)).sum + s.partlyOwned hash160 wtx -
        s.debit hash160 wtx := by
  obtain ⟨nDebit, hdebit⟩ := h.debit wtx hwtx hdepth
  obtain ⟨nValueOut, hvalue⟩ := h.value wtx hwtx hdepth
  obtain ⟨rfl, hpos⟩ := debit_eq hdebit
  obtain ⟨rfl, -, -⟩ := value_of_getValueOut hvalue
  have hfold : ∀ amounts : Amounts,
      (wtx.vout.foldl (s.addAmount hash160 (s.debit hash160 wtx)) amounts).flow true =
        amounts.flow true + (wtx.vout.map (s.netValue hash160 (s.debit hash160 wtx))).sum :=
    total_foldl (fun amounts : Amounts => amounts.flow true) _ (flow_addAmount _) wtx.vout
  have hmatch : ∀ n : ℤ, (⟨[], [], n, wtx.strFromAccount⟩ : Amounts).flow true = -n := fun n => by
    simp [Amounts.flow]
  rw [getAmounts, hdebit, partlyOwned]
  by_cases hdebited : s.debit hash160 wtx > 0
  · refine ⟨_, by simp only [bind, Except.bind, if_pos hdebited, hvalue]; rfl, ?_⟩
    rw [hfold, hmatch, if_pos hdebited]
    have hsum : ∀ vout : List CTxOut, (vout.map (s.netValue hash160 (s.debit hash160 wtx))).sum +
        (vout.map fun txout => txout.nValue.toInt).sum = (vout.map (s.ownValue hash160)).sum +
        (vout.map fun txout => if s.isChange hash160 txout then
          txout.nValue.toInt - s.ownValue hash160 txout else 0).sum := by
      intro vout
      rw [← List.sum_map_add, ← List.sum_map_add]
      refine congrArg List.sum (List.map_congr_left fun txout _ => ?_)
      rw [netValue, if_pos hdebited]
      split <;> ring
    linarith [hsum wtx.vout]
  · refine ⟨_, by simp only [bind, Except.bind, if_neg hdebited]; rfl, ?_⟩
    rw [hfold, hmatch, if_neg hdebited]
    have hnet : wtx.vout.map (s.netValue hash160 (s.debit hash160 wtx)) =
        wtx.vout.map (s.ownValue hash160) := by
      refine List.map_congr_left fun txout _ => ?_
      rw [netValue, if_neg hdebited]
    rw [hnet]
    linarith

theorem getBalanceAll_eq (h : s.Consistent H hash160) : s.getBalanceAll H hash160 0 =
    .ok ((s.txs.filter (s.counted H hash160)).map fun wtx =>
      (wtx.vout.map (s.ownValue hash160)).sum + s.partlyOwned hash160 wtx -
        s.debit hash160 wtx).sum := by
  refine foldlM_counted _ fun wtx hwtx hash n => ?_
  obtain ⟨b, hb⟩ := isTrusted_ok h hwtx
  dsimp only
  rw [hb]
  by_cases hcounted : s.counted H hash160 wtx = true
  · obtain ⟨htrusted, hmature⟩ := counted_iff.mp hcounted
    have hdepth := depth_of_counted hcounted
    obtain ⟨amounts, hamounts, hflow⟩ := getAmounts_flow h hwtx hdepth
    rw [hb, Except.ok.injEq] at htrusted
    simp [htrusted, not_lt.mpr hmature, hamounts, hflow, hdepth, hcounted, bind, Except.bind, pure, Except.pure]
  · rw [if_neg hcounted, add_zero]
    change (if (!b) = true ∨ s.getBlocksToMaturity H wtx > 0 then Except.ok n else _) = _
    rw [if_pos]
    rw [counted_iff, hb, not_and_or, Except.ok.injEq, Bool.not_eq_true] at hcounted
    exact hcounted.imp (fun hb => by rw [hb]; rfl) not_le.mp

/-! ## Coins and spends -/

variable (H) in
/-- The outpoints of a wallet transaction. -/
def outpointsOf (wtx : CWalletTx) : List COutPoint :=
  (List.range wtx.vout.length).map fun i => ⟨wtx.getHash H, .ofNat i⟩

theorem txs_getElem? (h : s.Consistent H hash160) (hwtx : wtx ∈ s.txs) :
    s.wallet.mapWallet[wtx.getHash H]? = some wtx := by
  obtain ⟨hash, hhash⟩ := mem_txs.mp hwtx
  rwa [← h.keyed hash wtx hhash] at hhash

theorem eq_of_getHash (h : s.Consistent H hash160) {wtx' : CWalletTx} (hwtx : wtx ∈ s.txs)
    (hwtx' : wtx' ∈ s.txs) (hhash : wtx.getHash H = wtx'.getHash H) : wtx = wtx' := by
  have h1 := txs_getElem? h hwtx
  rw [hhash, txs_getElem? h hwtx', Option.some.injEq] at h1
  exact h1.symm

theorem nodup_txs (h : s.Consistent H hash160) : s.txs.Nodup := by
  have hlist : s.wallet.mapWallet.toList.Nodup :=
    Std.ExtTreeMap.distinct_keys_toList.imp fun {item item'} hne (heq : item = item') =>
      hne (heq ▸ Std.ReflCmp.compare_self)
  refine hlist.map_on fun item hmem item' hmem' heq => ?_
  have hkey := h.keyed _ _ (Std.ExtTreeMap.mem_toList_iff_getElem?_eq_some.mp hmem)
  have hkey' := h.keyed _ _ (Std.ExtTreeMap.mem_toList_iff_getElem?_eq_some.mp hmem')
  exact Prod.ext (hkey.symm.trans ((congrArg (fun wtx : CWalletTx => wtx.getHash H) heq).trans hkey')) heq

variable (H s) in
/-- Transactions in the chain or the pool. -/
def live : List CWalletTx := s.txs.filter fun wtx => decide (0 ≤ s.getDepthInMainChain H wtx)

theorem mem_live : wtx ∈ s.live H ↔ wtx ∈ s.txs ∧ 0 ≤ s.getDepthInMainChain H wtx := by
  rw [live, List.mem_filter, decide_eq_true_iff]

/-- An output is spent if and only if a transaction in the chain or the pool spends it. -/
theorem isSpent_iff (h : s.Consistent H hash160) {hash : UInt256} {n : UInt32} :
    s.isSpent H hash n = true ↔ ⟨hash, n⟩ ∈ (s.live H).flatMap fun wtx =>
      CWallet.spendsOf wtx.toCTransaction := by
  rw [isSpent, CWallet.isSpent, List.any_eq_true, List.mem_flatMap]
  constructor
  · rintro ⟨wtxid, hmem, hdepth⟩
    obtain ⟨tx, htx, hspends⟩ := (h.spends _ _).mp (mem_equalRange.mp hmem)
    obtain ⟨wtx, hwtx, rfl⟩ := Option.map_eq_some_iff.mp htx
    rw [hwtx] at hdepth
    exact ⟨wtx, mem_live.mpr ⟨mem_txs.mpr ⟨_, hwtx⟩, of_decide_eq_true hdepth⟩,
      CWallet.mem_spendsOf.mpr hspends⟩
  · rintro ⟨wtx, hlive, hspends⟩
    obtain ⟨hwtx, hdepth⟩ := mem_live.mp hlive
    have hget := txs_getElem? h hwtx
    refine ⟨wtx.getHash H, mem_equalRange.mpr ((h.spends _ _).mpr
      ⟨_, walletTx_eq hget, CWallet.mem_spendsOf.mp hspends⟩), ?_⟩
    rw [hget]
    exact decide_eq_true hdepth

theorem nodup_spends (h : s.Consistent H hash160) :
    ((s.live H).flatMap fun wtx => CWallet.spendsOf wtx.toCTransaction).Nodup := by
  refine nodup_flatMap_of ((nodup_txs h).filter _) (fun wtx hlive => ?_) ?_
  · obtain ⟨hwtx, hdepth⟩ := mem_live.mp hlive
    rw [CWallet.spendsOf]
    split
    · exact List.nodup_nil
    · exact h.distinct wtx hwtx hdepth
  · intro wtx hlive wtx' hlive' outpoint hspends hspends'
    obtain ⟨hwtx, hdepth⟩ := mem_live.mp hlive
    obtain ⟨hwtx', hdepth'⟩ := mem_live.mp hlive'
    exact h.once wtx hwtx wtx' hwtx' hdepth hdepth' outpoint (CWallet.mem_spendsOf.mp hspends)
      (CWallet.mem_spendsOf.mp hspends')

theorem nodup_coins (h : s.Consistent H hash160) (p : CWalletTx → Bool) :
    ((s.txs.filter p).flatMap (outpointsOf H)).Nodup := by
  refine nodup_flatMap_of ((nodup_txs h).filter _) (fun wtx hmem => ?_) ?_
  · refine List.nodup_range.map_on fun i hi j hj heq => ?_
    have hsize := h.size wtx (List.mem_filter.mp hmem).1
    have hn := congrArg (fun outpoint : COutPoint => outpoint.n.toNat) heq
    rw [List.mem_range] at hi hj
    simp only [UInt32.toNat_ofNat'] at hn
    rwa [Nat.mod_eq_of_lt (by omega), Nat.mod_eq_of_lt (by omega)] at hn
  · intro wtx hmem wtx' hmem' outpoint hout hout'
    obtain ⟨i, -, rfl⟩ := List.mem_map.mp hout
    obtain ⟨j, -, heq⟩ := List.mem_map.mp hout'
    exact eq_of_getHash h (List.mem_filter.mp hmem).1 (List.mem_filter.mp hmem').1
      (congrArg COutPoint.hash heq).symm

variable (hash160 s) in
/-- The value of a coin if its transaction satisfies a predicate. -/
def valueFrom (p : CWalletTx → Bool) (outpoint : COutPoint) : ℤ :=
  if s.wallet.mapWallet[outpoint.hash]?.any p then s.coinValue hash160 outpoint else 0

theorem coinValue_of_mem (h : s.Consistent H hash160) (hwtx : wtx ∈ s.txs) {out : CTxOut × ℕ}
    (hout : out ∈ wtx.vout.zipIdx) :
    s.coinValue hash160 ⟨wtx.getHash H, .ofNat out.2⟩ = s.ownValue hash160 out.1 := by
  have hget := List.mem_zipIdx_iff_getElem?.mp hout
  have hlt := (List.getElem?_eq_some_iff.mp hget).1
  have hsize := h.size wtx hwtx
  rw [coinValue, txs_getElem? h hwtx, Option.bind_some, UInt32.toNat_ofNat',
    Nat.mod_eq_of_lt (by omega), hget]

/-- The own outputs that are spent, by their outpoints. -/
theorem sub_unspentOwn (h : s.Consistent H hash160) (hwtx : wtx ∈ s.txs) :
    (wtx.vout.map (s.ownValue hash160)).sum - s.unspentOwn H hash160 wtx =
      ((outpointsOf H wtx).map fun outpoint =>
        if outpoint ∈ (s.live H).flatMap fun wtx => CWallet.spendsOf wtx.toCTransaction then
          s.coinValue hash160 outpoint else 0).sum := by
  have hrange : List.range wtx.vout.length = wtx.vout.zipIdx.map Prod.snd := by
    rw [List.zipIdx_map_snd, List.range_eq_range']
  have hown : wtx.vout.map (s.ownValue hash160) =
      wtx.vout.zipIdx.map fun out => s.ownValue hash160 out.1 := by
    conv_lhs => rw [← List.zipIdx_map_fst 0 wtx.vout]
    rw [List.map_map]
    rfl
  rw [sub_eq_iff_eq_add', outpointsOf, hrange, List.map_map, List.map_map, hown, unspentOwn,
    ← List.sum_map_add]
  refine congrArg List.sum (List.map_congr_left fun out hout => ?_)
  dsimp only [Function.comp]
  rw [coinValue_of_mem h hwtx hout]
  simp only [← isSpent_iff h]
  split
  · rw [zero_add]
  · rw [add_zero]

theorem sum_valueFrom_spendsOf (h : s.Consistent H hash160) (p : CWalletTx → Bool) :
    ((CWallet.spendsOf wtx.toCTransaction).map (s.valueFrom hash160 p)).sum =
      s.debitFrom hash160 p wtx := by
  rw [CWallet.spendsOf, debitFrom]
  split
  · rename_i hcb
    symm
    refine List.sum_eq_zero fun x hx => ?_
    obtain ⟨txin, hmem, rfl⟩ := List.mem_map.mp hx
    rw [coinValue_of_isCoinBase h hcb txin hmem, ite_self]
  · rw [List.map_map]
    rfl

/-- What is spent of the transactions that satisfy a predicate is what the transactions in the
chain or the pool spend of them. -/
theorem sum_spentOwn (h : s.Consistent H hash160) (p : CWalletTx → Bool) :
    ((s.txs.filter p).map fun wtx => (wtx.vout.map (s.ownValue hash160)).sum -
      s.unspentOwn H hash160 wtx).sum = ((s.live H).map (s.debitFrom hash160 p)).sum := by
  have hspent := sum_spent (nodup_coins h p) (nodup_spends h) (s.valueFrom hash160 p) ?_
  · rw [sum_map_flatMap, sum_map_flatMap, List.map_congr_left
      fun wtx _ => sum_valueFrom_spendsOf h p] at hspent
    refine Eq.trans (congrArg List.sum (List.map_congr_left fun wtx hmem => ?_)) hspent
    obtain ⟨hwtx, hp⟩ := List.mem_filter.mp hmem
    rw [sub_unspentOwn h hwtx]
    refine congrArg List.sum (List.map_congr_left fun outpoint hout => ?_)
    obtain ⟨i, -, rfl⟩ := List.mem_map.mp hout
    rw [valueFrom, txs_getElem? h hwtx, Option.any_some, if_pos hp]
  · intro outpoint _ hnot
    rw [valueFrom]
    split
    · rename_i hany
      cases hprev : s.wallet.mapWallet[outpoint.hash]? with
      | none => rw [coinValue, hprev, Option.bind_none]
      | some prev =>
        rw [hprev, Option.any_some] at hany
        have hmem := mem_txs.mpr ⟨_, hprev⟩
        rw [coinValue, hprev, Option.bind_some, List.getElem?_eq_none]
        by_contra hlt
        refine hnot (List.mem_flatMap.mpr ⟨prev, List.mem_filter.mpr ⟨hmem, hany⟩,
          List.mem_map.mpr ⟨outpoint.n.toNat, List.mem_range.mpr (not_le.mp hlt), ?_⟩⟩)
        rw [h.keyed _ _ hprev, UInt32.ofNat_toNat]
    · rfl

/-- A transaction spends own coins of those that satisfy a predicate and of others. -/
theorem debitFrom_add_not (p : CWalletTx → Bool) : s.debitFrom hash160 p wtx +
    s.debitFrom hash160 (fun wtx => !p wtx) wtx = s.debit hash160 wtx := by
  rw [debitFrom, debitFrom, debit, ← List.sum_map_add]
  refine congrArg List.sum (List.map_congr_left fun txin _ => ?_)
  rw [coinValue]
  cases s.wallet.mapWallet[txin.prevout.hash]? with
  | none => rfl
  | some prev =>
    rw [Option.any_some, Option.any_some]
    cases p prev with
    | true => exact add_zero _
    | false => exact zero_add _

theorem filter_live : (s.live H).filter (s.counted H hash160) = s.txs.filter (s.counted H hash160) := by
  rw [live, List.filter_filter]
  refine List.filter_congr fun wtx _ => ?_
  cases hcounted : s.counted H hash160 wtx with
  | true => simpa using depth_of_counted hcounted
  | false => rfl

end

/-! ## The balances -/

variable {H hash160 s} in
/-- The totals agree if and only if the own coins of counted transactions that others spend,
with what passes for change, are worth the own coins of others that counted transactions
spend. -/
theorem getbalance_iff (h : s.Consistent H hash160) (accountBalance : Bytes → ℤ → Calc ℤ) :
    (∃ n, s.getbalance H hash160 accountBalance none = .ok n ∧
      s.getbalance H hash160 accountBalance (some (allAccounts, some 0)) = .ok n) ↔
    (((s.live H).filter fun wtx => !s.counted H hash160 wtx).map
        (s.debitFrom hash160 (s.counted H hash160))).sum +
      ((s.txs.filter (s.counted H hash160)).map (s.partlyOwned hash160)).sum =
    ((s.txs.filter (s.counted H hash160)).map
      (s.debitFrom hash160 fun wtx => !s.counted H hash160 wtx)).sum := by
  rw [getbalance, getbalance, if_pos rfl, Option.getD_some, getBalance_eq h, getBalanceAll_eq h]
  have hspent := sum_spentOwn h (s.counted H hash160)
  have hlive := List.sum_map_filter_add_sum_map_filter_not (fun wtx => s.counted H hash160 wtx)
    (s.debitFrom hash160 (s.counted H hash160)) (s.live H)
  simp only [Bool.decide_eq_true, Bool.not_eq_true, Bool.decide_eq_false] at hlive
  rw [filter_live] at hlive
  generalize s.txs.filter (s.counted H hash160) = txs at hspent hlive ⊢
  have hdebit : (txs.map (s.debit hash160)).sum =
      (txs.map (s.debitFrom hash160 (s.counted H hash160))).sum +
        (txs.map (s.debitFrom hash160 fun wtx => !s.counted H hash160 wtx)).sum := by
    rw [← List.sum_map_add]
    exact congrArg List.sum (List.map_congr_left fun wtx _ => (debitFrom_add_not _).symm)
  have hunspent : (txs.map fun wtx => (wtx.vout.map (s.ownValue hash160)).sum -
      s.unspentOwn H hash160 wtx).sum + (txs.map (s.unspentOwn H hash160)).sum =
      (txs.map fun wtx => (wtx.vout.map (s.ownValue hash160)).sum).sum := by
    rw [← List.sum_map_add]
    exact congrArg List.sum (List.map_congr_left fun wtx _ => sub_add_cancel _ _)
  have hflow : (txs.map fun wtx => (wtx.vout.map (s.ownValue hash160)).sum +
      s.partlyOwned hash160 wtx - s.debit hash160 wtx).sum + (txs.map (s.debit hash160)).sum =
      (txs.map fun wtx => (wtx.vout.map (s.ownValue hash160)).sum).sum +
        (txs.map (s.partlyOwned hash160)).sum := by
    rw [← List.sum_map_add, ← List.sum_map_add]
    exact congrArg List.sum (List.map_congr_left fun wtx _ => sub_add_cancel _ _)
  constructor
  · rintro ⟨n, hn, hall⟩
    rw [Except.ok.injEq] at hn hall
    linarith
  · intro hbalance
    exact ⟨_, rfl, congrArg Except.ok (by linarith)⟩

end WalletView

/-! ## A payment with others -/

/-- A hash for the samples : the length. -/
def byteCount (bytes : Bytes) : UInt256 := BitVec.ofNat 256 bytes.length

/-- A transaction in the pool that spends the payment of `pollPayment`, and a coin that is not
in the wallet. -/
def jointPayment : CWalletTx :=
  { CWalletTx.init with
    vin := [⟨⟨95, 0⟩, [], 0⟩, ⟨⟨8, 0⟩, [], 0⟩]
    vout := [pollOut] }

/-- A wallet with the two, which are under their hashes. -/
def jointView : WalletView :=
  { pollView 3 with
    wallet := {
      fFileBacked := true
      mapWallet := ((∅ : MapWallet).insert 95 (pollPayment 3)).insert 136 jointPayment
      mapTxSpends := [(⟨9, 0⟩, 95), (⟨95, 0⟩, 136), (⟨8, 0⟩, 136)] }
    fMerkleVerified := fun _ => true
    mempoolExists := fun hash => hash = 136 }

theorem jointView_getElem? (hash : UInt256) (wtx : CWalletTx) :
    jointView.wallet.mapWallet[hash]? = some wtx ↔
      hash = 95 ∧ wtx = pollPayment 3 ∨ hash = 136 ∧ wtx = jointPayment := by
  change (((∅ : MapWallet).insert 95 (pollPayment 3)).insert 136 jointPayment)[hash]? = some wtx ↔ _
  rw [Std.ExtTreeMap.getElem?_insert, Std.ExtTreeMap.getElem?_insert]
  by_cases hjoint : hash = 136
  · subst hjoint
    simp [eq_comm]
  · rw [if_neg fun heq => hjoint (Std.LawfulEqOrd.eq_of_compare heq).symm]
    by_cases hpoll : hash = 95
    · subst hpoll
      simp [eq_comm]
    · rw [if_neg fun heq => hpoll (Std.LawfulEqOrd.eq_of_compare heq).symm]
      refine iff_of_false (by simp) ?_
      rintro (⟨h, -⟩ | ⟨h, -⟩)
      · exact hpoll h
      · exact hjoint h

theorem jointView_mem_txs {wtx : CWalletTx} :
    wtx ∈ jointView.txs ↔ wtx = pollPayment 3 ∨ wtx = jointPayment := by
  rw [WalletView.mem_txs]
  simp only [jointView_getElem?]
  constructor
  · rintro ⟨hash, ⟨-, h⟩ | ⟨-, h⟩⟩
    · exact .inl h
    · exact .inr h
  · rintro (h | h)
    · exact ⟨95, .inl ⟨rfl, h⟩⟩
    · exact ⟨136, .inr ⟨rfl, h⟩⟩

theorem jointView_isMineOut : jointView.isMineOut (fun _ => 0) pollOut = true :=
  (isMineOut_pollOut 3).1

theorem jointView_spends : SpendIndex jointView.wallet := by
  intro outpoint txid
  have htx : ∀ tx, walletTx jointView.wallet.mapWallet txid = some tx ↔
      txid = 95 ∧ tx = (pollPayment 3).toCTransaction ∨
        txid = 136 ∧ tx = jointPayment.toCTransaction := by
    intro tx
    rw [walletTx, Option.map_eq_some_iff]
    simp only [jointView_getElem?]
    constructor
    · rintro ⟨wtx, ⟨hid, rfl⟩ | ⟨hid, rfl⟩, rfl⟩
      · exact .inl ⟨hid, rfl⟩
      · exact .inr ⟨hid, rfl⟩
    · rintro (⟨hid, rfl⟩ | ⟨hid, rfl⟩)
      · exact ⟨_, .inl ⟨hid, rfl⟩, rfl⟩
      · exact ⟨_, .inr ⟨hid, rfl⟩, rfl⟩
  simp only [htx, CTransaction.Spends]
  change (outpoint, txid) ∈ [(⟨9, 0⟩, 95), (⟨95, 0⟩, 136), (⟨8, 0⟩, 136)] ↔ _
  constructor
  · intro hmem
    simp only [List.mem_cons, List.not_mem_nil, or_false, Prod.mk.injEq] at hmem
    obtain ⟨rfl, rfl⟩ | ⟨rfl, rfl⟩ | ⟨rfl, rfl⟩ := hmem
    · exact ⟨_, .inl ⟨rfl, rfl⟩, by decide⟩
    · exact ⟨_, .inr ⟨rfl, rfl⟩, by decide⟩
    · exact ⟨_, .inr ⟨rfl, rfl⟩, by decide⟩
  · rintro ⟨tx, ⟨rfl, rfl⟩ | ⟨rfl, rfl⟩, -, hmem⟩
    · cases List.mem_singleton.mp hmem
      decide
    · simp only [jointPayment, List.map_cons, List.map_nil, List.mem_cons, List.not_mem_nil,
        or_false] at hmem
      obtain rfl | rfl := hmem <;> decide

theorem jointView_debit {wtx : CWalletTx} (h : wtx ∈ jointView.txs) :
    ∃ nDebit, jointView.getDebit (fun _ => 0) wtx.toCTransaction = .ok nDebit := by
  obtain rfl | rfl := jointView_mem_txs.mp h
  · exact ⟨0, rfl⟩
  · have hprev : jointView.prevOut ⟨⟨95, 0⟩, [], 0⟩ = some pollOut := by decide
    have hother : jointView.prevOut ⟨⟨8, 0⟩, [], 0⟩ = none := by decide
    refine ⟨5, ?_⟩
    rw [WalletView.getDebit, jointPayment]
    simp only [List.foldlM_cons, WalletView.debitOf, hprev, hother, jointView_isMineOut]
    rfl

theorem jointView_consistent : jointView.Consistent byteCount (fun _ => 0) where
  spends := jointView_spends
  keyed := by
    intro hash wtx hwtx
    obtain ⟨rfl, rfl⟩ | ⟨rfl, rfl⟩ := (jointView_getElem? _ _).mp hwtx
    · decide
    · rfl
  size := by
    intro wtx hwtx
    obtain rfl | rfl := jointView_mem_txs.mp hwtx <;> decide
  value := by
    intro wtx hwtx _
    obtain rfl | rfl := jointView_mem_txs.mp hwtx
    · exact ⟨5, by decide⟩
    · exact ⟨5, by decide⟩
  debit := fun wtx hwtx _ => jointView_debit hwtx
  prevout := by
    intro wtx hwtx _ _ txin hmem parent hparent
    obtain rfl | rfl := jointView_mem_txs.mp hwtx
    · cases List.mem_singleton.mp hmem
      rcases (jointView_getElem? _ _).mp hparent with ⟨h, -⟩ | ⟨h, -⟩
      · exact absurd h (by decide)
      · exact absurd h (by decide)
    · simp only [jointPayment, List.mem_cons, List.not_mem_nil, or_false] at hmem
      rcases (jointView_getElem? _ _).mp hparent with ⟨h, rfl⟩ | ⟨h, rfl⟩
      · obtain rfl | rfl := hmem <;> decide
      · obtain rfl | rfl := hmem <;> decide
  distinct := by
    intro wtx hwtx _
    obtain rfl | rfl := jointView_mem_txs.mp hwtx <;> decide
  once := by
    intro wtx hwtx wtx' hwtx' _ _ outpoint hspends hspends'
    obtain rfl | rfl := jointView_mem_txs.mp hwtx <;> obtain rfl | rfl := jointView_mem_txs.mp hwtx'
    · rfl
    · exact absurd hspends'.2 (List.mem_singleton.mp hspends.2 ▸ by decide)
    · exact absurd hspends.2 (List.mem_singleton.mp hspends'.2 ▸ by decide)
    · rfl

/-- The equivalence for this wallet. -/
theorem getbalance_iff_joint : (∃ n,
    jointView.getbalance byteCount (fun _ => 0) (fun _ _ => .ok 0) none = .ok n ∧
      jointView.getbalance byteCount (fun _ => 0) (fun _ _ => .ok 0)
        (some (allAccounts, some 0)) = .ok n) ↔
    (((jointView.live byteCount).filter fun wtx =>
        !jointView.counted byteCount (fun _ => 0) wtx).map
        (jointView.debitFrom (fun _ => 0) (jointView.counted byteCount (fun _ => 0)))).sum +
      ((jointView.txs.filter (jointView.counted byteCount (fun _ => 0))).map
        (jointView.partlyOwned (fun _ => 0))).sum =
    ((jointView.txs.filter (jointView.counted byteCount (fun _ => 0))).map
      (jointView.debitFrom (fun _ => 0) fun wtx =>
        !jointView.counted byteCount (fun _ => 0) wtx)).sum :=
  WalletView.getbalance_iff jointView_consistent _

/-- The second payment is not trusted, since one of its coins is not in the wallet. -/
theorem jointView_isTrusted :
    jointView.isTrusted byteCount (fun _ => 0) jointPayment = .ok false := by
  obtain ⟨nDebit, hdebit⟩ := jointView_debit (jointView_mem_txs.mpr (.inr rfl))
  have hinputs : jointView.inputsTrusted (fun _ => 0) jointPayment.vin = .ok false := by
    have hparent : jointView.wallet.mapWallet[(95 : UInt256)]? = some (pollPayment 3) := by
      decide
    have hother : jointView.wallet.mapWallet[(8 : UInt256)]? = none := by decide
    have hout : (pollPayment 3).vout[(0 : UInt32).toNat]? = some pollOut := rfl
    rw [jointPayment]
    simp only [WalletView.inputsTrusted, hparent, hother, hout, jointView_isMineOut]
    rfl
  rw [WalletView.isTrusted, if_neg (by decide)]
  dsimp only
  rw [if_neg (by decide +kernel), if_neg (by decide +kernel), if_neg (by decide), hdebit]
  change (if ¬nDebit > 0 then Except.ok false else _) = _
  split
  · rfl
  · exact hinputs

theorem jointView_counted :
    jointView.txs.filter (jointView.counted byteCount (fun _ => 0)) = [pollPayment 3] := by
  have htxs : jointView.txs = [pollPayment 3, jointPayment] := by decide
  have hpoll : jointView.counted byteCount (fun _ => 0) (pollPayment 3) = true := by
    decide
  have hjoint : jointView.counted byteCount (fun _ => 0) jointPayment = false := by
    rw [WalletView.counted, jointView_isTrusted]
    rfl
  rw [htxs, List.filter_cons_of_pos hpoll, List.filter_cons_of_neg (by rw [hjoint]; decide),
    List.filter_nil]

/-- The coin is spent for one total, and not for the other. -/
theorem getbalance_differs : ¬∀ (H : Bytes → UInt256) (hash160 : Bytes → UInt160) (s : WalletView),
    s.Consistent H hash160 → ∀ accountBalance : Bytes → ℤ → Calc ℤ,
      ∃ n, s.getbalance H hash160 accountBalance none = .ok n ∧
        s.getbalance H hash160 accountBalance (some (allAccounts, some 0)) = .ok n := by
  intro h
  obtain ⟨n, hn, hall⟩ := h byteCount (fun _ => 0) jointView jointView_consistent fun _ _ => .ok 0
  have hspent : jointView.unspentOwn byteCount (fun _ => 0) (pollPayment 3) = 0 := by
    have hout : jointView.isSpent byteCount ((pollPayment 3).getHash byteCount) 0 = true := by
      decide +kernel
    rw [WalletView.unspentOwn]
    change (if jointView.isSpent byteCount ((pollPayment 3).getHash byteCount) 0 = true then 0
      else jointView.ownValue (fun _ => 0) pollOut) + 0 = 0
    rw [if_pos hout, add_zero]
  have hown : ((pollPayment 3).vout.map (jointView.ownValue fun _ => 0)).sum = 5 := by
    change jointView.ownValue (fun _ => 0) pollOut + 0 = 5
    rw [WalletView.ownValue, jointView_isMineOut]
    rfl
  have hdebit : jointView.debit (fun _ => 0) (pollPayment 3) = 0 := by rfl
  rw [WalletView.getbalance, WalletView.getBalance_eq jointView_consistent, jointView_counted,
    List.map_singleton, List.sum_singleton, hspent, Except.ok.injEq] at hn
  rw [WalletView.getbalance, if_pos rfl, Option.getD_some,
    WalletView.getBalanceAll_eq jointView_consistent, jointView_counted, List.map_singleton,
    List.sum_singleton, WalletView.partlyOwned, hdebit, hown, Except.ok.injEq] at hall
  rw [← hn] at hall
  exact absurd hall (by decide)

end Ticoin
