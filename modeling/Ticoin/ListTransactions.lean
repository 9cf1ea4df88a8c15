import Ticoin.ListSinceBlock
import Ticoin.AccountingEntry

/-!
# rpcwallet.cpp : listtransactions

The wallet's transactions and the transfers of an account in their order, newest first, are listed
until there are `nCount + nFrom` entries ; of these a page is cut out, and it is turned around. The
complete list would be that of all items (`allEntries`).

Where the sum of the two numbers fits in an `int`, and the entries listed do too, a page is a slice
of the complete list, and consecutive pages are consecutive slices (`listtransactions_iff`). The sum
is computed for the first item already.
-/

namespace Ticoin

open Codec

/-! ## Entries -/

/-- What a transfer is listed as. -/
structure MoveEntry where
  account : Bytes
  time : Int64
  amount : Int64
  otheraccount : Bytes
  comment : Bytes
  deriving DecidableEq

inductive ListedEntry where
  | tx (entry : TxEntry)
  | move (entry : MoveEntry)
  deriving DecidableEq

/-- `AcentryToJSON`. -/
def acentryToJSON (acentry : AcEntry.CAccountingEntry) (strAccount : Bytes) : List ListedEntry :=
  if strAccount = allAccounts ∨ acentry.strAccount = strAccount then
    [.move ⟨acentry.strAccount, acentry.nTime, acentry.nCreditDebit, acentry.strOtherAccount,
      acentry.strComment⟩]
  else []

/-- A wallet transaction or a transfer. -/
inductive OrderedItem where
  | tx (wtx : CWalletTx)
  | acentry (entry : AcEntry.CAccountingEntry)

def OrderedItem.nOrderPos : OrderedItem → ℤ
  | .tx wtx => wtx.nOrderPos
  | .acentry entry => entry.nOrderPos.toInt

/-- The value of an `int` expression, which must fit. -/
def toInt (n : ℤ) : Calc ℤ :=
  if -INT_MAX - 1 ≤ n ∧ n ≤ INT_MAX then .ok n else .error .undefined

/-- An iterator of an array of some size. -/
def checkIterator (n size : ℤ) : Calc ℕ :=
  if 0 ≤ n ∧ n ≤ size then .ok n.toNat else .error .undefined

namespace WalletView

variable (H : Bytes → UInt256) (hash160 : Bytes → UInt160) (s : WalletView)
  (records : List AcEntry.Record)

/-- `OrderedTxItems`, with the records of the database. -/
def orderedItems (strAccount : Bytes) : Calc (List OrderedItem) :=
  match AcEntry.listAccountCreditDebit strAccount records with
  | .error what => .error (.runtimeError what)
  | .ok acentries => .ok ((s.wallet.mapWallet.toList.map (fun item => OrderedItem.tx item.2) ++
      acentries.map OrderedItem.acentry).insertionSort fun a b => a.nOrderPos ≤ b.nOrderPos)

/-- The entries of an item. -/
def itemEntries (strAccount : Bytes) : OrderedItem → Calc (List ListedEntry)
  | .tx wtx => (s.listTransactions H hash160 wtx strAccount 0 true).map fun es => es.map .tx
  | .acentry entry => .ok (acentryToJSON entry strAccount)

/-! ## The call -/

/-- The loop until there are enough entries. -/
def collectEntries (strAccount : Bytes) (nCount nFrom : ℤ) :
    List OrderedItem → List ListedEntry → Calc (List ListedEntry)
  | [], ret => .ok ret
  | item :: items, ret => do
    let entries ← s.itemEntries H hash160 strAccount item
    let ret := ret ++ entries
    let nSize ← toInt ret.length
    let nEnough ← toInt (nCount + nFrom)
    if nSize ≥ nEnough then return ret else collectEntries strAccount nCount nFrom items ret

/-- The end of the call : a page of the entries collected, oldest first. -/
def cutPage (nCount nFrom : ℤ) (ret : List ListedEntry) : Calc (List ListedEntry) := do
  let nSize ← toInt ret.length
  let nFrom := if nFrom > nSize then nSize else nFrom
  let nEnd ← toInt (nFrom + nCount)
  let nCount := if nEnd > nSize then nSize - nFrom else nCount
  let first ← checkIterator nFrom ret.length
  let nLast ← toInt (nFrom + nCount)
  let last ← checkIterator nLast ret.length
  let ret := ret.take last
  return (ret.drop first).reverse

/-- `listtransactions`, with the parameters that were given. -/
def listtransactions (account : Option Bytes) (count start : Option Int32) :
    Calc (List ListedEntry) := do
  let strAccount := account.getD allAccounts
  let nCount := (count.getD 10).toInt
  let nFrom := (start.getD 0).toInt
  if nCount < 0 then throw (.runtimeError "Negative count")
  if nFrom < 0 then throw (.runtimeError "Negative from")
  let txOrdered ← s.orderedItems records strAccount
  let ret ← s.collectEntries H hash160 strAccount nCount nFrom txOrdered.reverse []
  cutPage nCount nFrom ret

/-! ## The complete list -/

/-- All entries for an account, newest first. -/
def allEntries (strAccount : Bytes) : Calc (List ListedEntry) := do
  let txOrdered ← s.orderedItems records strAccount
  let entries ← txOrdered.reverse.mapM (s.itemEntries H hash160 strAccount)
  return entries.flatten

end WalletView

/-- The entries of items up to the first with which there are `n`, after some others. -/
def listedUntil {α : Type} (n : ℕ) : List α → List (List α) → List α
  | ret, [] => ret
  | ret, entries :: rest =>
    if n ≤ (ret ++ entries).length then ret ++ entries else listedUntil n (ret ++ entries) rest

/-! ## Pages -/

theorem toInt_eq {n : ℤ} (hnonneg : 0 ≤ n) (hle : n ≤ INT_MAX) : toInt n = .ok n := by
  unfold toInt
  rw [if_pos ⟨by unfold INT_MAX; omega, hle⟩]

theorem toInt_large {n : ℤ} (h : INT_MAX < n) : toInt n = .error .undefined := by
  unfold toInt
  rw [if_neg fun hfits => absurd hfits.2 (not_le.mpr h)]

theorem checkIterator_eq {n size : ℤ} (hnonneg : 0 ≤ n) (hle : n ≤ size) :
    checkIterator n size = .ok n.toNat :=
  if_pos ⟨hnonneg, hle⟩

/-- What is listed is the start of the complete list, and enough of it. -/
theorem listedUntil_spec {α : Type} (n : ℕ) : ∀ (ess : List (List α)) (ret : List α),
    listedUntil n ret ess <+: ret ++ ess.flatten ∧ ret <+: listedUntil n ret ess ∧
      (n ≤ (listedUntil n ret ess).length ∨ listedUntil n ret ess = ret ++ ess.flatten)
  | [], ret => by
    unfold listedUntil
    rw [List.flatten_nil, List.append_nil]
    exact ⟨List.prefix_rfl, List.prefix_rfl, .inr rfl⟩
  | entries :: rest, ret => by
    unfold listedUntil
    rw [List.flatten_cons, ← List.append_assoc]
    split
    · rename_i henough
      exact ⟨List.prefix_append _ _, List.prefix_append _ _, .inl henough⟩
    · obtain ⟨hstart, hret, hspec⟩ := listedUntil_spec n rest (ret ++ entries)
      exact ⟨hstart, (List.prefix_append _ _).trans hret, hspec⟩

/-- A slice of a list lies in a start of it that is long enough. -/
theorem slice_of_start {α : Type} {l L : List α} (h : l <+: L) {start count : ℕ}
    (hlen : count + start ≤ l.length ∨ l = L) :
    (l.drop start).take count = (L.drop start).take count := by
  rcases hlen with hlen | rfl
  · obtain ⟨t, rfl⟩ := h
    rw [List.drop_append_of_le_length (by omega),
      List.take_append_of_le_length (by rw [List.length_drop]; omega)]
  · rfl

/-- The cut is a slice. -/
theorem cutPage_eq {nCount nFrom : ℤ} {ret : List ListedEntry} (hcount : 0 ≤ nCount)
    (hfrom : 0 ≤ nFrom) (hsize : (ret.length : ℤ) ≤ INT_MAX) (hcountLe : nCount ≤ INT_MAX)
    (hsum : ret = [] ∨ nCount + nFrom ≤ INT_MAX) : WalletView.cutPage nCount nFrom ret =
      .ok ((ret.drop nFrom.toNat).take nCount.toNat).reverse := by
  have hend : min nFrom ret.length + nCount ≤ INT_MAX := by
    rcases hsum with rfl | hsum
    · rw [List.length_nil, Int.natCast_zero, min_eq_right hfrom, zero_add]
      exact hcountLe
    · omega
  have hclamp : (if nFrom > (ret.length : ℤ) then (ret.length : ℤ) else nFrom) =
      min nFrom ret.length := by
    split <;> omega
  unfold WalletView.cutPage
  rw [toInt_eq (by omega) hsize]
  change (toInt _ >>= fun nEnd => _) = _
  rw [hclamp, toInt_eq (by omega) hend]
  change (checkIterator _ _ >>= fun first => _) = _
  dsimp only
  rw [checkIterator_eq (by omega) (by omega)]
  change (toInt _ >>= fun nLast => _) = _
  have hlast : min nFrom (ret.length : ℤ) + (if min nFrom (ret.length : ℤ) + nCount > ret.length
      then (ret.length : ℤ) - min nFrom ret.length else nCount) =
        min (min nFrom ret.length + nCount) ret.length := by
    split <;> omega
  rw [hlast, toInt_eq (by omega) (by omega)]
  change (checkIterator _ _ >>= fun last => _) = _
  rw [checkIterator_eq (by omega) (by omega)]
  change Except.ok _ = Except.ok _
  congr 2
  rw [List.drop_take]
  rcases le_total nFrom ret.length with hle | hge
  · rw [min_eq_left hle]
    rcases le_total (nFrom + nCount) ret.length with hfits | hpast
    · rw [min_eq_left hfits]
      congr 1
      omega
    · rw [min_eq_right hpast, List.take_of_length_le (by rw [List.length_drop]; omega),
        List.take_of_length_le (by rw [List.length_drop]; omega)]
  · rw [min_eq_right hge, List.drop_of_length_le (by omega), List.drop_of_length_le (by omega),
      List.take_nil, List.take_nil]

namespace WalletView

variable {H : Bytes → UInt256} {hash160 : Bytes → UInt160} {s : WalletView}
  {records : List AcEntry.Record} {strAccount : Bytes} {items : List OrderedItem}
  {ess : List (List ListedEntry)} {nCount nFrom : ℤ}

/-- The loop lists what there is until there is enough, unless that is too much for an `int`. -/
theorem collectEntries_eq {n : ℕ} (hsum : nCount + nFrom = n) (hle : (n : ℤ) ≤ INT_MAX) :
    ∀ {items : List OrderedItem} {ess : List (List ListedEntry)} {ret : List ListedEntry},
      items.mapM (s.itemEntries H hash160 strAccount) = .ok ess → (ret.length : ℤ) ≤ INT_MAX →
      s.collectEntries H hash160 strAccount nCount nFrom items ret =
        if ((listedUntil n ret ess).length : ℤ) ≤ INT_MAX then .ok (listedUntil n ret ess)
        else .error .undefined
  | [], ess, ret, hitems, hret => by
    rw [List.mapM_nil] at hitems
    cases hitems
    exact (if_pos hret).symm
  | item :: items, ess, ret, hitems, hret => by
    rw [List.mapM_cons] at hitems
    obtain ⟨entries, hentries, hitems⟩ := Outcome.bind_eq_ok.mp hitems
    obtain ⟨rest, hrest, hitems⟩ := Outcome.bind_eq_ok.mp hitems
    cases hitems
    have hretPrefix := (listedUntil_spec n rest (ret ++ entries)).2.1.length_le
    unfold collectEntries listedUntil
    rw [hentries]
    change (toInt (ret ++ entries).length >>= fun nSize => _) = _
    rcases le_or_gt ((ret ++ entries).length : ℤ) INT_MAX with hsize | hlarge
    · rw [toInt_eq (by omega) hsize]
      change (toInt (nCount + nFrom) >>= fun nEnough => _) = _
      rw [hsum, toInt_eq (by omega) hle]
      change (if _ then _ else _) = _
      by_cases henough : n ≤ (ret ++ entries).length
      · rw [if_pos (by exact_mod_cast henough), if_pos henough, if_pos hsize]
        rfl
      · rw [if_neg (by exact_mod_cast henough), if_neg henough]
        exact collectEntries_eq hsum hle hrest hsize
    · have hlong : ¬((if n ≤ (ret ++ entries).length then ret ++ entries
          else listedUntil n (ret ++ entries) rest).length : ℤ) ≤ INT_MAX := by
        split <;> omega
      rw [toInt_large hlarge, if_neg hlong]
      rfl

/-- With one item, the sum of the two numbers is computed. -/
theorem collectEntries_overflow {item : OrderedItem} {entries ret : List ListedEntry}
    (hentries : s.itemEntries H hash160 strAccount item = .ok entries)
    (hsum : INT_MAX < nCount + nFrom) :
    s.collectEntries H hash160 strAccount nCount nFrom (item :: items) ret =
      .error .undefined := by
  unfold collectEntries
  rw [hentries]
  change (toInt (ret ++ entries).length >>= fun nSize => _) = _
  rcases le_or_gt ((ret ++ entries).length : ℤ) INT_MAX with hsize | hlarge
  · rw [toInt_eq (by omega) hsize]
    change (toInt (nCount + nFrom) >>= fun nEnough => _) = _
    rw [toInt_large hsum]
    rfl
  · rw [toInt_large hlarge]
    rfl

variable (H hash160 s records) in
/-- A page is what it should be : the slice of the complete list, if there is one. -/
def PageRight (account : Option Bytes) (count start : Option Int32) : Prop :=
  ∀ L, s.allEntries H hash160 records (account.getD allAccounts) = .ok L →
    s.listtransactions H hash160 records account count start =
      .ok ((L.drop (start.getD 0).toInt.toNat).take (count.getD 10).toInt.toNat).reverse

variable (H hash160 s records) in
/-- If all items are listed, there are none, or the sum of the two numbers fits in an `int`, and so
does the number of entries up to the item with which there are as many. -/
def PageFits (account : Option Bytes) (count start : Option Int32) : Prop :=
  ∀ items ess, s.orderedItems records (account.getD allAccounts) = .ok items →
    items.reverse.mapM (s.itemEntries H hash160 (account.getD allAccounts)) = .ok ess →
    items = [] ∨ (count.getD 10).toInt + (start.getD 0).toInt ≤ INT_MAX ∧
      ((listedUntil ((count.getD 10).toInt + (start.getD 0).toInt).toNat [] ess).length : ℤ) ≤
        INT_MAX

theorem listtransactions_eq {account : Option Bytes} {count start : Option Int32}
    (hcount : 0 ≤ (count.getD 10).toInt) (hfrom : 0 ≤ (start.getD 0).toInt)
    (hitems : s.orderedItems records (account.getD allAccounts) = .ok items) :
    s.listtransactions H hash160 records account count start =
      s.collectEntries H hash160 (account.getD allAccounts) (count.getD 10).toInt
        (start.getD 0).toInt items.reverse [] >>= fun ret =>
          cutPage (count.getD 10).toInt (start.getD 0).toInt ret := by
  unfold listtransactions
  dsimp only
  rw [if_neg (not_lt.mpr hcount), if_neg (not_lt.mpr hfrom), hitems]
  rfl

theorem allEntries_eq (hitems : s.orderedItems records strAccount = .ok items)
    (hess : items.reverse.mapM (s.itemEntries H hash160 strAccount) = .ok ess) :
    s.allEntries H hash160 records strAccount = .ok ess.flatten := by
  unfold allEntries
  rw [hitems]
  change (items.reverse.mapM (s.itemEntries H hash160 strAccount) >>= fun entries =>
    Except.ok entries.flatten) = _
  rw [hess]
  rfl

/-- A page that is right fits : otherwise the loop computes what no `int` can have. -/
theorem PageRight.fits {account : Option Bytes} {count start : Option Int32}
    (hcount : 0 ≤ (count.getD 10).toInt) (hfrom : 0 ≤ (start.getD 0).toInt)
    (h : s.PageRight H hash160 records account count start) :
    s.PageFits H hash160 records account count start := by
  intro items ess hitems hess
  have hpage := h _ (allEntries_eq hitems hess)
  rw [listtransactions_eq hcount hfrom hitems] at hpage
  obtain ⟨ret, hret, -⟩ := Outcome.bind_eq_ok.mp hpage
  by_cases hempty : items = []
  · exact .inl hempty
  obtain ⟨item, rest, hcons⟩ := List.exists_cons_of_ne_nil (mt List.reverse_eq_nil_iff.mp hempty)
  rw [hcons] at hret hess
  rcases le_or_gt ((count.getD 10).toInt + (start.getD 0).toInt) INT_MAX with hsum | hlarge
  · refine .inr ⟨hsum, ?_⟩
    by_contra hlong
    rw [collectEntries_eq (Int.toNat_of_nonneg (by omega)).symm (by omega) hess
      (by rw [List.length_nil]; unfold INT_MAX; omega), if_neg hlong] at hret
    cases hret
  · rw [List.mapM_cons] at hess
    obtain ⟨entries, hentries, -⟩ := Outcome.bind_eq_ok.mp hess
    rw [collectEntries_overflow hentries hlarge] at hret
    cases hret

/-- A page is the slice of the complete list exactly if the numbers fit. -/
theorem listtransactions_iff {account : Option Bytes} {count start : Option Int32}
    (hcount : 0 ≤ (count.getD 10).toInt) (hfrom : 0 ≤ (start.getD 0).toInt) :
    s.PageRight H hash160 records account count start ↔
      s.PageFits H hash160 records account count start := by
  refine ⟨fun h => h.fits hcount hfrom, fun h L hL => ?_⟩
  have hmax : INT_MAX = 2147483647 := rfl
  have hcountLt := (count.getD 10).toInt_lt
  obtain ⟨items, hitems, hL⟩ := Outcome.bind_eq_ok.mp hL
  obtain ⟨ess, hess, hL⟩ := Outcome.bind_eq_ok.mp hL
  cases hL
  rw [listtransactions_eq hcount hfrom hitems]
  rcases h items ess hitems hess with rfl | ⟨hsum, hlen⟩
  · rw [List.reverse_nil, List.mapM_nil] at hess
    cases hess
    exact cutPage_eq hcount hfrom (by rw [List.length_nil]; omega) (by omega) (.inl rfl)
  · obtain ⟨hstart, -, hspec⟩ := listedUntil_spec
      ((count.getD 10).toInt + (start.getD 0).toInt).toNat ess []
    rw [List.nil_append] at hstart hspec
    rw [collectEntries_eq (Int.toNat_of_nonneg (by omega)).symm (by omega) hess
      (by rw [List.length_nil]; omega), if_pos hlen]
    refine (cutPage_eq hcount hfrom hlen (by omega) (.inr hsum)).trans ?_
    rw [slice_of_start hstart (hspec.imp_left fun henough => by omega)]

/-- Consecutive pages are consecutive slices : together they are one page. -/
theorem pages_consecutive {account : Option Bytes} {count count' start start' : Option Int32}
    {L page page' : List ListedEntry}
    (hL : s.allEntries H hash160 records (account.getD allAccounts) = .ok L)
    (hpage : s.PageRight H hash160 records account count start)
    (hpage' : s.PageRight H hash160 records account count' start')
    (hnext : (start'.getD 0).toInt.toNat = (start.getD 0).toInt.toNat + (count.getD 10).toInt.toNat)
    (hcall : s.listtransactions H hash160 records account count start = .ok page)
    (hcall' : s.listtransactions H hash160 records account count' start' = .ok page') :
    page' ++ page = ((L.drop (start.getD 0).toInt.toNat).take
      ((count.getD 10).toInt.toNat + (count'.getD 10).toInt.toNat)).reverse := by
  cases (hpage L hL).symm.trans hcall
  cases (hpage' L hL).symm.trans hcall'
  rw [hnext, List.take_add, List.drop_drop, List.reverse_append]

end WalletView

/-! ## Witnesses -/

/-- A wallet without transactions. -/
def newWallet : WalletView where
  wallet := { fFileBacked := false }
  keystore := ⟨fun _ => false, ∅⟩
  mapAddressBook := fun _ => none
  fMerkleVerified := fun _ => false
  bSpendZeroConfChange := true
  mapBlockIndex := ∅
  tip := none
  mempoolExists := fun _ => false
  nAdjustedTime := 0

/-- The record of one transfer. -/
def oneTransfer : List AcEntry.Record :=
  [AcEntry.writeAccountingEntry 1 (AcEntry.sampleCredit [104, 105])]

namespace WalletView

theorem allEntries_oneTransfer : ∃ L,
    newWallet.allEntries (fun _ => 0) (fun _ => 0) oneTransfer allAccounts = .ok L ∧
      L.length = 1 := by
  have hlen : (newWallet.allEntries (fun _ => 0) (fun _ => 0) oneTransfer
      allAccounts).toOption.map List.length = some 1 := by
    decide
  obtain ⟨L, hL, hlen⟩ := Option.map_eq_some_iff.mp hlen
  exact ⟨L, Machine.eq_ok_of_toOption hL, hlen⟩

/-- A page of ten, and one transfer. -/
theorem listtransactions_oneTransfer :
    newWallet.PageRight (fun _ => 0) (fun _ => 0) oneTransfer none none none := by
  refine (listtransactions_iff (by decide) (by decide)).mpr fun items ess hitems hess => .inr ?_
  obtain ⟨L, hL, hlen⟩ := allEntries_oneTransfer
  cases (allEntries_eq hitems hess).symm.trans hL
  refine ⟨by decide, ?_⟩
  have hle := (listedUntil_spec 10 ess []).1.length_le
  rw [List.nil_append, hlen] at hle
  exact (Int.ofNat_le.mpr hle).trans (by decide)

/-- The largest count, from the second entry on : there is one transfer, and no page. -/
theorem not_pageRight :
    ¬newWallet.PageRight (fun _ => 0) (fun _ => 0) oneTransfer none (some 2147483647) (some 1) := by
  intro h
  obtain ⟨L, hL, -⟩ := allEntries_oneTransfer
  have hpage := h L hL
  have hnone : (newWallet.listtransactions (fun _ => 0) (fun _ => 0) oneTransfer none
      (some 2147483647) (some 1)).toOption.isNone = true := by
    decide
  rw [hpage] at hnone
  cases hnone

end WalletView

end Ticoin
