import Ticoin.WalletAmounts

/-!
# rpcwallet.cpp : listsinceblock

A client asks with the hash of the last block it knows, and gets the wallet transactions
since then. `listsinceblock` compares the depth of a transaction on the active chain with
the depth that the height of the block gives. If the block is on the active chain these are
the transactions that are not in it or below it. If the block was orphaned, blocks of the
active chain that are not higher were never reported, and their transactions are left out.
`listsinceblock_iff` says which transactions those are.
-/

namespace Ticoin

open Codec

/-! ## Entries -/

inductive TxCategory where
  | send
  | orphan
  | immature
  | generate
  | receive
  deriving DecidableEq, Repr

/-- What `WalletTxToJSON` adds to an entry. -/
structure WalletTxInfo where
  confirmations : ℤ
  generated : Bool
  /-- hash, index and time of the block -/
  block : Option (UInt256 × ℤ × UInt32)
  txid : UInt256
  walletconflicts : List UInt256
  time : UInt32
  timereceived : UInt32
  mapValue : List (Bytes × Bytes)
  deriving DecidableEq

structure TxEntry where
  account : Bytes
  address : Option CTxDestination
  category : TxCategory
  amount : ℤ
  fee : Option ℤ
  long : Option WalletTxInfo
  deriving DecidableEq

/-- `MaybePushAddress`. -/
def maybeAddress : CTxDestination → Option CTxDestination
  | .noDestination => none
  | dest => some dest

/-- The name of every account. -/
def allAccounts : Bytes := [0x2a]

namespace WalletView

variable (H : Bytes → UInt256) (hash160 : Bytes → UInt160) (s : WalletView)

/-- `WalletTxToJSON`. -/
def walletTxToJSON (wtx : CWalletTx) : WalletTxInfo where
  confirmations := s.getDepthInMainChain H wtx
  generated := wtx.isCoinBase
  block := if s.getDepthInMainChain H wtx > 0 then
      s.mapBlockIndex[wtx.hashBlock]?.map fun pindex =>
        (wtx.hashBlock, wtx.nIndex, pindex.entry.nTime)
    else none
  txid := wtx.getHash H
  walletconflicts := (s.wallet.getConflicts (wtx.getHash H)).erase (wtx.getHash H)
  time := if wtx.nTimeSmart ≠ 0 then wtx.nTimeSmart else wtx.nTimeReceived
  timereceived := wtx.nTimeReceived
  mapValue := wtx.mapValue

/-- The category of an entry for what is received. -/
def receivedCategory (wtx : CWalletTx) : TxCategory :=
  if wtx.isCoinBase then
    if s.getDepthInMainChain H wtx < 1 then .orphan
    else if s.getBlocksToMaturity H wtx > 0 then .immature
    else .generate
  else .receive

/-- `ListTransactions`. -/
def listTransactions (wtx : CWalletTx) (strAccount : Bytes) (nMinDepth : ℤ) (fLong : Bool) :
    Calc (List TxEntry) := do
  let amounts ← s.getAmounts hash160 wtx
  let fAllAccounts := strAccount = allAccounts
  let long := if fLong then some (s.walletTxToJSON H wtx) else none
  let sent :=
    if (amounts.listSent ≠ [] ∨ amounts.nFee ≠ 0) ∧
        (fAllAccounts ∨ strAccount = amounts.strSentAccount) then
      amounts.listSent.map fun sent =>
        ⟨amounts.strSentAccount, maybeAddress sent.1, .send, -sent.2, some (-amounts.nFee), long⟩
    else []
  let received :=
    if amounts.listReceived ≠ [] ∧ s.getDepthInMainChain H wtx ≥ nMinDepth then
      (amounts.listReceived.map fun received =>
        ⟨(s.mapAddressBook received.1).getD [], maybeAddress received.1, s.receivedCategory H wtx,
          received.2, none, long⟩).filter fun entry =>
            decide (fAllAccounts ∨ entry.account = strAccount)
    else []
  return sent ++ received

/-! ## The call -/

structure SinceBlock where
  transactions : List TxEntry
  lastblock : UInt256

/-- The loop over the wallet. -/
def listSince (depth : ℤ) : List (UInt256 × CWalletTx) → Calc (List TxEntry)
  | [] => .ok []
  | (_, tx) :: rest =>
    if depth = -1 ∨ s.getDepthInMainChain H tx < depth then do
      let entries ← s.listTransactions H hash160 tx allAccounts 0 true
      let others ← listSince depth rest
      return entries ++ others
    else listSince depth rest

/-- `chainActive[nHeight]`. -/
def chainAt (nHeight : ℤ) : Option CBlockIndex :=
  if nHeight < 0 then none else s.chainActive.at? nHeight.toNat

/-- `listsinceblock`, with the parameters that were given. -/
def listsinceblock (blockId : Option UInt256) (target_confirms : Option ℤ) : Calc SinceBlock := do
  let pindex := blockId.bind fun blockId => s.mapBlockIndex[blockId]?
  if target_confirms.getD 1 < 1 then
    throw (.runtimeError "Invalid parameter")
  let depth : ℤ := match pindex with
    | some pindex => 1 + s.chainActive.height - pindex.nHeight
    | none => -1
  let transactions ← s.listSince H hash160 depth s.wallet.mapWallet.toList
  let pblockLast := s.chainAt (s.chainActive.height + 1 - target_confirms.getD 1)
  return ⟨transactions, (pblockLast.bind (·.entry.phashBlock)).getD 0⟩

/-! ## What is listed -/

variable {H hash160 s} {wtx : CWalletTx} {b : CBlockIndex}

variable (H s) in
/-- Whether a transaction is since a block : in a higher block, or in none while the block is
not above the tip. An unconfirmed transaction that is not in the pool may miss one block more,
and a block two above the tip is taken for none. -/
def Since (b : CBlockIndex) (wtx : CWalletTx) : Prop :=
  (b.nHeight : ℤ) = s.chainActive.height + 2 ∨
    match s.findBlock H wtx with
    | some X => b.nHeight < X.nHeight
    | none => (b.nHeight : ℤ) ≤
        s.chainActive.height + if s.mempoolExists (wtx.getHash H) then 0 else 1

/-- The comparison of depths, in heights. -/
theorem depth_lt_iff : 1 + s.chainActive.height - b.nHeight = -1 ∨
    s.getDepthInMainChain H wtx < 1 + s.chainActive.height - b.nHeight ↔ s.Since H b wtx := by
  rw [Since]
  cases hblock : s.findBlock H wtx with
  | some X =>
    have hle := nHeight_le_of_findBlock hblock
    rw [getDepthInMainChain_of_found hblock]
    dsimp only
    omega
  | none =>
    rw [getDepthInMainChain_of_notFound hblock]
    cases s.mempoolExists (wtx.getHash H) <;> simp <;> omega

/-- The loop returns if and only if each listing it makes does, and then has them all. -/
theorem listSince_spec (depth : ℤ) : ∀ (l : List (UInt256 × CWalletTx)),
    (∀ entries, s.listSince H hash160 depth l = .ok entries → ∀ e, e ∈ entries ↔
      ∃ x ∈ l, (depth = -1 ∨ s.getDepthInMainChain H x.2 < depth) ∧
        ∃ es, s.listTransactions H hash160 x.2 allAccounts 0 true = .ok es ∧ e ∈ es) ∧
    ((∃ entries, s.listSince H hash160 depth l = .ok entries) ↔
      ∀ x ∈ l, depth = -1 ∨ s.getDepthInMainChain H x.2 < depth →
        ∃ es, s.listTransactions H hash160 x.2 allAccounts 0 true = .ok es)
  | [] => by
    refine ⟨fun entries h => ?_, by simp [listSince]⟩
    cases h
    simp
  | (hash, tx) :: rest => by
    obtain ⟨hmem, hok⟩ := listSince_spec depth rest
    rw [listSince, List.forall_mem_cons]
    split
    · rename_i hvisit
      cases hlist : s.listTransactions H hash160 tx allAccounts 0 true with
      | error e =>
        refine ⟨nofun, ⟨nofun, fun h => ?_⟩⟩
        obtain ⟨es, hes⟩ := h.1 hvisit
        cases hes
      | ok es =>
        cases hrest : s.listSince H hash160 depth rest with
        | error e =>
          rw [hrest] at hok
          refine ⟨nofun, ⟨nofun, fun h => ?_⟩⟩
          obtain ⟨entries, hentries⟩ := hok.mpr h.2
          cases hentries
        | ok others =>
          constructor
          · rintro entries ⟨⟩ e
            rw [List.mem_append, hmem others hrest e]
            simp only [List.mem_cons, exists_eq_or_imp, hlist, Except.ok.injEq, exists_eq_left', hvisit,
              true_and]
          · exact iff_of_true ⟨_, rfl⟩ ⟨fun _ => ⟨es, rfl⟩, hok.mp ⟨others, hrest⟩⟩
    · rename_i hskip
      refine ⟨fun entries h e => ?_, hok.trans ⟨fun h => ⟨fun hvisit => absurd hvisit hskip, h⟩, And.right⟩⟩
      rw [hmem entries h e]
      simp only [List.mem_cons, exists_eq_or_imp, hskip, false_and, false_or]

/-- Every entry carries the transaction it is for. -/
theorem long_of_mem {es : List TxEntry} {e : TxEntry}
    (h : s.listTransactions H hash160 wtx allAccounts 0 true = .ok es) (he : e ∈ es) :
    e.long = some (s.walletTxToJSON H wtx) := by
  rw [listTransactions] at h
  cases hamounts : s.getAmounts hash160 wtx with
  | error f =>
    rw [hamounts] at h
    cases h
  | ok amounts =>
    rw [hamounts] at h
    obtain rfl := Except.ok.inj h
    rcases List.mem_append.mp he with he | he
    · split at he
      · obtain ⟨sent, -, rfl⟩ := List.mem_map.mp he
        rfl
      · exact absurd he List.not_mem_nil
    · split at he
      · obtain ⟨received, -, rfl⟩ := List.mem_map.mp (List.mem_filter.mp he).1
        rfl
      · exact absurd he List.not_mem_nil

variable (H s) in
/-- The transactions of the wallet are under their hashes, as `AddToWallet` puts them. -/
def Keyed : Prop := ∀ (hash : UInt256) (wtx : CWalletTx),
  s.wallet.mapWallet[hash]? = some wtx → wtx.getHash H = hash

variable (H hash160 s) in
/-- The call returns, and lists what has entries and is in no block of the active chain that
is `b` or below it. -/
def ListsSince (blockId : UInt256) (target_confirms : Option ℤ) (b : CBlockIndex) : Prop :=
  ∃ r, s.listsinceblock H hash160 (some blockId) target_confirms = .ok r ∧
    ∀ (hash : UInt256) (wtx : CWalletTx) (entries : List TxEntry),
      s.wallet.mapWallet[hash]? = some wtx →
      s.listTransactions H hash160 wtx allAccounts 0 true = .ok entries → entries ≠ [] →
      (¬∃ X, s.findBlock H wtx = some X ∧ X ∈ b.path) →
      ∃ e ∈ r.transactions, e.long.map (·.txid) = some hash

variable (H hash160 s) in
/-- The listings that are made return, and what should be listed is since the block by its
height. -/
structure SinceByHeight (b : CBlockIndex) : Prop where
  returns : ∀ (hash : UInt256) (wtx : CWalletTx), s.wallet.mapWallet[hash]? = some wtx →
    s.Since H b wtx → ∃ entries, s.listTransactions H hash160 wtx allAccounts 0 true = .ok entries
  since : ∀ (hash : UInt256) (wtx : CWalletTx) (entries : List TxEntry),
    s.wallet.mapWallet[hash]? = some wtx →
    s.listTransactions H hash160 wtx allAccounts 0 true = .ok entries → entries ≠ [] →
    (¬∃ X, s.findBlock H wtx = some X ∧ X ∈ b.path) → s.Since H b wtx

/-- Polling misses nothing if and only if the listings it makes return, and every transaction
that should be listed is since the block by its height. -/
theorem listsinceblock_iff {blockId : UInt256} {target_confirms : Option ℤ}
    (hb : s.mapBlockIndex[blockId]? = some b) (htarget : 1 ≤ target_confirms.getD 1)
    (hkeyed : s.Keyed H) :
    s.ListsSince H hash160 blockId target_confirms b ↔ s.SinceByHeight H hash160 b := by
  obtain ⟨last, hcall⟩ : ∃ last, s.listsinceblock H hash160 (some blockId) target_confirms =
      (s.listSince H hash160 (1 + s.chainActive.height - b.nHeight)
        s.wallet.mapWallet.toList).map fun entries => ⟨entries, last⟩ := by
    refine ⟨((s.chainAt (s.chainActive.height + 1 - target_confirms.getD 1)).bind
      (·.entry.phashBlock)).getD 0, ?_⟩
    simp only [listsinceblock, Option.bind_some, hb, if_neg (not_lt.mpr htarget)]
    cases s.listSince H hash160 (1 + s.chainActive.height - b.nHeight) s.wallet.mapWallet.toList <;>
      rfl
  obtain ⟨hmem, hok⟩ := @listSince_spec H hash160 s (1 + s.chainActive.height - b.nHeight)
    s.wallet.mapWallet.toList
  simp only [depth_lt_iff] at hmem hok
  rw [ListsSince, hcall]
  generalize s.listSince H hash160 (1 + s.chainActive.height - b.nHeight)
    s.wallet.mapWallet.toList = result at hmem hok
  have hwallet : ∀ (hash : UInt256) (wtx : CWalletTx), s.wallet.mapWallet[hash]? = some wtx ↔
      (hash, wtx) ∈ s.wallet.mapWallet.toList :=
    fun _ _ => Std.ExtTreeMap.mem_toList_iff_getElem?_eq_some.symm
  constructor
  · rintro ⟨r, hr, hlists⟩
    cases result with
    | error e => cases hr
    | ok entries =>
      obtain rfl := Except.ok.inj hr
      refine ⟨fun hash wtx hwtx => hok.mp ⟨entries, rfl⟩ _ ((hwallet _ _).mp hwtx), ?_⟩
      intro hash wtx es hwtx hes hne hout
      obtain ⟨e, he, htxid⟩ := hlists hash wtx es hwtx hes hne hout
      obtain ⟨x, hx, hsince, es', hes', hmem'⟩ := (hmem entries rfl e).mp he
      -- an entry with this hash is one for this transaction
      rw [long_of_mem hes' hmem', Option.map_some, Option.some.injEq] at htxid
      have hx' := (hwallet x.1 x.2).mpr hx
      have heq : x.1 = hash := (hkeyed x.1 x.2 hx').symm.trans htxid
      rw [heq, hwtx, Option.some.injEq] at hx'
      exact hx' ▸ hsince
  · rintro ⟨hreturns, hsince⟩
    obtain ⟨entries, rfl⟩ := hok.mpr fun x hx => hreturns x.1 x.2 ((hwallet _ _).mpr hx)
    refine ⟨_, rfl, fun hash wtx es hwtx hes hne hout => ?_⟩
    obtain ⟨e, he⟩ := List.exists_mem_of_ne_nil es hne
    refine ⟨e, (hmem entries rfl e).mpr ⟨(hash, wtx), (hwallet _ _).mp hwtx,
      hsince hash wtx es hwtx hes hne hout, es, hes, he⟩, ?_⟩
    rw [long_of_mem hes he, Option.map_some]
    exact congrArg some (hkeyed hash wtx hwtx)

/-- For a block of the active chain every transaction that should be listed is since it. -/
theorem since_of_mem_path {t : CBlockIndex} (htip : s.tip = some t) (hb : b ∈ t.path)
    (hout : ¬∃ X, s.findBlock H wtx = some X ∧ X ∈ b.path) : s.Since H b wtx := by
  have hheight := height_of_tip htip
  have hle := CBlockIndex.nHeight_le_of_mem hb
  refine .inr ?_
  cases hblock : s.findBlock H wtx with
  | none =>
    dsimp only
    split <;> omega
  | some X =>
    obtain ⟨t', htip', hX⟩ := mem_of_findBlock hblock
    rw [htip, Option.some.injEq] at htip'
    subst htip'
    by_contra hnot
    exact hout ⟨X, hblock, CBlockIndex.mem_path_of_le hX hb (not_lt.mp hnot)⟩

end WalletView

/-! ## An orphaned block -/

/-- An entry with its hash, for the samples. -/
def pollEntry (hash : UInt256) : BlockIndexEntry := {
  address := hash.toNat, phashBlock := some hash, nVersion := 2, hashMerkleRoot := 7, nTime := 0
  nBits := 0, nNonce := 0, nTx := 1, nSequenceId := 0 }

def pollGenesis : CBlockIndex := .root (pollEntry 1)

/-- The block the client knows, which was orphaned. -/
def orphanedBlock : CBlockIndex := .child pollGenesis (pollEntry 2)

/-- The block in its place on the active chain. -/
def activeBlock : CBlockIndex := .child pollGenesis (pollEntry 3)

def activeTip : CBlockIndex := .child activeBlock (pollEntry 4)

/-- A payment to a key. -/
def pollOut : CTxOut := ⟨5, payToPubKey (2 :: List.replicate 32 0)⟩

/-- A transaction that pays it to the wallet, in the block with a hash. -/
def pollPayment (hashBlock : UInt256) : CWalletTx :=
  { CWalletTx.init with
    vin := [⟨⟨9, 0⟩, [], 0⟩]
    vout := [pollOut]
    hashBlock := hashBlock
    nIndex := 0 }

/-- A wallet with this payment. Every transaction has the hash 7, every key the id 0. -/
def pollView (hashBlock : UInt256) : WalletView where
  wallet := { fFileBacked := true, mapWallet := (∅ : MapWallet).insert 7 (pollPayment hashBlock) }
  keystore := ⟨fun _ => true, ∅⟩
  mapAddressBook := fun _ => none
  fMerkleVerified := fun _ => false
  bSpendZeroConfChange := true
  mapBlockIndex := (((∅ : Std.ExtTreeMap UInt256 CBlockIndex).insert 1 pollGenesis).insert 2
    orphanedBlock).insert 3 activeBlock |>.insert 4 activeTip
  tip := some activeTip
  mempoolExists := fun _ => false
  nAdjustedTime := 0

theorem pollView_keyed (hashBlock : UInt256) : (pollView hashBlock).Keyed fun _ => 7 :=
  fun hash wtx h => by
    change ((∅ : MapWallet).insert 7 (pollPayment hashBlock))[hash]? = some wtx at h
    rw [Std.ExtTreeMap.getElem?_insert] at h
    split at h
    · rename_i heq
      exact Std.LawfulEqOrd.eq_of_compare heq
    · simp at h

theorem isMineOut_pollOut (hashBlock : UInt256) :
    (pollView hashBlock).isMineOut (fun _ => 0) pollOut = true ∧
      extractDestination (fun _ => 0) pollOut.scriptPubKey = some (.keyID 0) := by
  have hsolver := solver_payToPubKey (show (2 :: List.replicate 32 (0 : UInt8)).length = 33 from rfl)
  have hdest : extractDestination (fun _ => 0) pollOut.scriptPubKey = some (.keyID 0) := by
    rw [extractDestination, pollOut, hsolver]
    rfl
  exact ⟨isMine_of_extractDestination _ _ hdest, hdest⟩

/-- The payment is listed as received. -/
theorem listTransactions_pollPayment (hashBlock : UInt256) (hdepth : 0 ≤
      (pollView hashBlock).getDepthInMainChain (fun _ => 7) (pollPayment hashBlock)) :
    ∃ entry, (pollView hashBlock).listTransactions (fun _ => 7) (fun _ => 0)
      (pollPayment hashBlock) allAccounts 0 true = .ok [entry] := by
  obtain ⟨hmine, hdest⟩ := isMineOut_pollOut hashBlock
  have hdebit : (pollView hashBlock).getDebit (fun _ => 0) (pollPayment hashBlock).toCTransaction =
      .ok 0 := by rfl
  have hadd : (pollView hashBlock).addAmount (fun _ => 0) 0 ⟨[], [], 0, []⟩ pollOut =
      ⟨[(.keyID 0, 5)], [], 0, []⟩ := by
    simp only [WalletView.addAmount, hmine, hdest]
    rfl
  have hamounts : (pollView hashBlock).getAmounts (fun _ => 0) (pollPayment hashBlock) =
      .ok ⟨[(.keyID 0, 5)], [], 0, []⟩ := by
    rw [WalletView.getAmounts, hdebit, ← hadd]
    rfl
  refine ⟨⟨[], some (.keyID 0), .receive, 5, none, some ((pollView hashBlock).walletTxToJSON
    (fun _ => 7) (pollPayment hashBlock))⟩, ?_⟩
  rw [WalletView.listTransactions, hamounts]
  show Except.ok _ = Except.ok _
  congr 1
  rw [if_neg (by simp), if_pos ⟨by simp, hdepth⟩]
  rfl

/-- The equivalence for the tip of the active chain. -/
theorem listsinceblock_iff_tip :
    (pollView 3).ListsSince (fun _ => 7) (fun _ => 0) 4 none activeTip ↔
      (pollView 3).SinceByHeight (fun _ => 7) (fun _ => 0) activeTip :=
  WalletView.listsinceblock_iff (by decide) (by decide) (pollView_keyed 3)

/-- The payment in the block that took the place of the orphaned one is never listed. -/
theorem listsinceblock_misses :
    ¬∀ (H : Bytes → UInt256) (hash160 : Bytes → UInt160) (s : WalletView) (blockId : UInt256)
      (b : CBlockIndex), s.mapBlockIndex[blockId]? = some b → s.Keyed H →
        s.ListsSince H hash160 blockId none b := by
  intro h
  obtain ⟨r, hr, hlists⟩ := h (fun _ => 7) (fun _ => 0) (pollView 3) 2 orphanedBlock
    (by decide) (pollView_keyed 3)
  have hcall : (pollView 3).listsinceblock (fun _ => 7) (fun _ => 0) (some 2) none = .ok ⟨[], 4⟩ := by
    rfl
  obtain ⟨entry, hentry⟩ := listTransactions_pollPayment 3 (by decide)
  have hout : ¬∃ X, (pollView 3).findBlock (fun _ => 7) (pollPayment 3) = some X ∧
      X ∈ orphanedBlock.path := by
    decide
  obtain ⟨e, he, -⟩ := hlists 7 (pollPayment 3) _ (by decide) hentry (List.cons_ne_nil _ _) hout
  rw [hcall, Except.ok.injEq] at hr
  rw [← hr] at he
  exact absurd he List.not_mem_nil

end Ticoin
