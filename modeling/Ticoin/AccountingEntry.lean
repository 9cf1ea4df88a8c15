import Ticoin.Lib.Outcome
import Ticoin.WireFormat
import Ticoin.Util

/-!
# CAccountingEntry : the records of transfers

A transfer between accounts is two records. The order position of a record is put in a map, and the
map is appended to the comment, behind a zero byte ; the reader splits the comment at the first zero
byte, and it is the reader alone that limits the length of the two texts.

So a record is read back unchanged exactly if its comment has no zero byte and neither the name of
the other account nor the comment with what is appended is too long, and if all records of a wallet
are so, `ListAccountCreditDebit` reads them (`readsBack_iff`).
-/

namespace Ticoin

namespace AcEntry

open Codec

/-! ## The map -/

abbrev MapValue := Std.ExtTreeMap Bytes Bytes

/-- The key of the order position. -/
def keyN : Bytes := asciiBytes "n"

/-- `ReadOrderPos`. -/
def readOrderPos (mapValue : MapValue) : Int64 :=
  match mapValue[keyN]? with
  | none => -1
  | some n => atoi64 n

/-- `WriteOrderPos`. -/
def writeOrderPos (nOrderPos : Int64) (mapValue : MapValue) : MapValue :=
  if nOrderPos = -1 then mapValue else mapValue.insert keyN (i64tostr nOrderPos)

/-- `Serialize` of a pair of strings. -/
def serializeItem (item : Bytes × Bytes) : Bytes := serializeBytes item.1 ++ serializeBytes item.2

def unserializeItem : Reader (Bytes × Bytes) := do
  let k ← unserializeBytes
  let v ← unserializeBytes
  return (k, v)

/-- `Serialize` of a map. -/
def serializeMap (mapValue : MapValue) : Bytes :=
  writeCompactSize mapValue.size ++ mapValue.toList.flatMap serializeItem

/-- `Unserialize` of a map : the first item of a key is kept. -/
def unserializeMap : Reader MapValue := do
  let nSize ← readCompactSize
  let items ← readN unserializeItem nSize
  return items.foldl (fun m item => m.insertIfNew item.1 item.2) ∅

/-! ## The record -/

/-- `LimitedString::Unserialize`. -/
def unserializeLimited (limit : ℕ) : Reader Bytes := do
  let size ← readCompactSize
  failIf "String length limit exceeded" (limit < size)
  readBytes endOfData size

structure CAccountingEntry where
  strAccount : Bytes := []
  nCreditDebit : Int64 := 0
  nTime : Int64 := 0
  strOtherAccount : Bytes := []
  strComment : Bytes := []
  mapValue : MapValue := ∅
  /-- position in ordered transaction list -/
  nOrderPos : Int64 := -1
  nEntryNo : UInt64 := 0
  ssExtra : Bytes := []

/-- The limit of both texts. -/
def commentLimit : ℕ := 65536

namespace CAccountingEntry

/-- The comment with the map behind a zero byte. -/
def combinedComment (e : CAccountingEntry) : Bytes :=
  let mapValue := writeOrderPos e.nOrderPos e.mapValue
  if mapValue.isEmpty ∧ e.ssExtra = [] then e.strComment
  else e.strComment ++ 0 :: (serializeMap mapValue ++ e.ssExtra)

/-- `Serialize`, with what it leaves of the entry : the comment ends at the first zero byte. -/
def serialize (nVersion : Int32) (e : CAccountingEntry) : Bytes × CAccountingEntry :=
  (serializeInt32 nVersion ++ (serializeInt64 e.nCreditDebit ++ (serializeInt64 e.nTime ++
      (serializeBytes e.strOtherAccount ++ serializeBytes e.combinedComment))),
    { e with
      strComment := e.combinedComment.takeWhile (· ≠ 0)
      mapValue := (writeOrderPos e.nOrderPos e.mapValue).erase keyN })

/-- What is behind the first zero byte of a comment. -/
def splitComment (ssExtra strComment : Bytes) : Except String (MapValue × Bytes) :=
  match strComment.dropWhile (· ≠ 0) with
  | [] => .ok (∅, ssExtra)
  | _ :: ss => unserializeMap ss

/-- `Unserialize` into an entry. -/
def unserialize (e : CAccountingEntry) : Reader CAccountingEntry := do
  let _ ← unserializeInt32
  let nCreditDebit ← unserializeInt64
  let nTime ← unserializeInt64
  let strOtherAccount ← unserializeLimited commentLimit
  let strComment ← unserializeLimited commentLimit
  let (mapValue, ssExtra) ← (splitComment e.ssExtra strComment : Except String _)
  return { e with
    nCreditDebit := nCreditDebit
    nTime := nTime
    strOtherAccount := strOtherAccount
    strComment := strComment.takeWhile (· ≠ 0)
    nOrderPos := readOrderPos mapValue
    mapValue := mapValue.erase keyN
    ssExtra := ssExtra }

end CAccountingEntry

/-! ## move and ListAccountCreditDebit -/

/-- The debit and the credit that `move` writes. -/
def movecmd (strFrom strTo strComment : Bytes) (nAmount nNow nPosDebit nPosCredit : Int64) :
    CAccountingEntry × CAccountingEntry :=
  ({ strAccount := strFrom
     nOrderPos := nPosDebit
     nCreditDebit := -nAmount
     nTime := nNow
     strOtherAccount := strTo
     strComment := strComment },
   { strAccount := strTo
     nOrderPos := nPosCredit
     nCreditDebit := nAmount
     nTime := nNow
     strOtherAccount := strFrom
     strComment := strComment })

/-- A record of the database : the account and the number from the key, and the value. -/
structure Record where
  strAccount : Bytes
  nEntryNo : UInt64
  value : Bytes

/-- `CLIENT_VERSION`. -/
def CLIENT_VERSION : Int32 := 90500

/-- `WriteAccountingEntry`. -/
def writeAccountingEntry (nAccEntryNum : UInt64) (acentry : CAccountingEntry) : Record :=
  ⟨acentry.strAccount, nAccEntryNum, (acentry.serialize CLIENT_VERSION).1⟩

/-- One record read. -/
def Record.read (record : Record) : Except String CAccountingEntry := do
  let (acentry, _) ← CAccountingEntry.unserialize { strAccount := record.strAccount } record.value
  return { acentry with nEntryNo := record.nEntryNo }

/-- `ListAccountCreditDebit`, from the records in the order of their keys. -/
def listAccountCreditDebit (strAccount : Bytes) (records : List Record) :
    Except String (List CAccountingEntry) :=
  (records.filter fun record =>
    strAccount = asciiBytes "*" ∨ record.strAccount = strAccount).mapM Record.read

/-! ## Reading texts -/

theorem bind_of_reads {α β : Type} {p : Reader α} {f : α → Reader β} {bs : Bytes} {a : α}
    (h : Reads p bs a) (rest : Bytes) : (p >>= f) (bs ++ rest) = f a rest := by
  change (p (bs ++ rest) >>= fun r => f r.1 r.2) = _
  rw [h]
  rfl

/-- A size above the limit is not read. -/
theorem readCompactSize_large {n : ℕ} (h : MAX_SIZE < n) (rest : Bytes) :
    ∃ e, readCompactSize (writeCompactSize n ++ rest) = .error e := by
  have hmax : 0x02000000 < n := h
  cases hread : readCompactSize (writeCompactSize n ++ rest) with
  | error e => exact ⟨e, rfl⟩
  | ok r =>
    exfalso
    obtain ⟨chSize, s, hch, hread⟩ := ok_of_bind hread
    obtain ⟨nSizeRet, s', hafter, hread⟩ := ok_of_bind hread
    obtain ⟨u, s'', hfail, -⟩ := ok_of_bind hread
    have hle := (ok_of_failIf hfail).1
    unfold writeCompactSize at hch
    rw [if_neg (by omega), if_neg (by omega)] at hch
    split at hch
    · rename_i hfour
      rw [List.append_assoc, reads_readLe endOfData (k := 1) (by decide)] at hch
      cases hch
      rw [readSizeAfter, if_neg (by decide), if_neg (by decide), if_pos rfl,
        reads_longSize (k := 4) (by omega) (by omega)] at hafter
      cases hafter
      exact hle h
    · rw [List.append_assoc, reads_readLe endOfData (k := 1) (by decide)] at hch
      cases hch
      rw [readSizeAfter, if_neg (by decide), if_neg (by decide), if_neg (by decide)] at hafter
      obtain ⟨xSize, s₁, hx, hafter⟩ := ok_of_bind hafter
      obtain ⟨u', s₂, hfail', hafter⟩ := ok_of_bind hafter
      obtain ⟨rfl, -⟩ := ok_of_pure hafter
      have hleast := (ok_of_failIf hfail').1
      have hbound : MAX_SIZE = 0x02000000 := rfl
      omega

/-- A text is read back exactly if it is not too long. -/
theorem unserializeLimited_eq {v : Bytes} : (v.length ≤ commentLimit →
      Reads (unserializeLimited commentLimit) (serializeBytes v) v) ∧
    (commentLimit < v.length → ∀ rest, ∃ e,
      unserializeLimited commentLimit (serializeBytes v ++ rest) = .error e) := by
  have hlimit : commentLimit = 65536 := rfl
  have hmax : MAX_SIZE = 0x02000000 := rfl
  constructor
  · intro h
    exact (reads_compactSize (by omega)).bind
      (((reads_failIf _ (by omega)).bind (reads_readBytes endOfData v)))
  · intro h rest
    unfold unserializeLimited serializeBytes
    rw [List.append_assoc]
    rcases Nat.lt_or_ge MAX_SIZE v.length with hlarge | hsmall
    · obtain ⟨e, he⟩ := readCompactSize_large hlarge (v ++ rest)
      refine ⟨e, ?_⟩
      change (readCompactSize (writeCompactSize v.length ++ (v ++ rest)) >>= _) = _
      rw [he]
      rfl
    · refine ⟨"String length limit exceeded", ?_⟩
      rw [bind_of_reads (reads_compactSize hsmall)]
      change (failIf _ _ (v ++ rest) >>= _) = _
      rw [failIf, if_pos h]
      rfl

/-! ## The order position -/

/-- The map that only has the order position. -/
def positionMap (nOrderPos : Int64) : MapValue := (∅ : MapValue).insert keyN (i64tostr nOrderPos)

theorem toList_positionMap (nOrderPos : Int64) :
    (positionMap nOrderPos).toList = [(keyN, i64tostr nOrderPos)] := by
  have hsize : (positionMap nOrderPos).toList.length = 1 := by
    rw [Std.ExtTreeMap.length_toList, positionMap, Std.ExtTreeMap.size_insert]
    simp
  obtain ⟨item, hitem⟩ := List.length_eq_one_iff.mp hsize
  have hmem : (keyN, i64tostr nOrderPos) ∈ (positionMap nOrderPos).toList := by
    rw [Std.ExtTreeMap.mem_toList_iff_getElem?_eq_some, positionMap,
      Std.ExtTreeMap.getElem?_insert_self]
  rw [hitem, List.mem_singleton] at hmem
  rw [hitem, hmem]

theorem getElem?_positionMap (nOrderPos : Int64) :
    (positionMap nOrderPos)[keyN]? = some (i64tostr nOrderPos) :=
  Std.ExtTreeMap.getElem?_insert_self

theorem readOrderPos_positionMap (nOrderPos : Int64) :
    readOrderPos (positionMap nOrderPos) = nOrderPos := by
  unfold readOrderPos
  rw [getElem?_positionMap]
  exact atoi64_i64tostr nOrderPos

theorem length_i64tostr_le (n : Int64) : (i64tostr n).length ≤ 20 := by
  have hlt := n.toInt_lt
  have hle := n.le_toInt
  have hdigits : (decimal n.toInt.natAbs).length ≤ 19 := length_decimal_le (by decide) (by omega)
  unfold i64tostr
  split
  · exact Nat.succ_le_succ hdigits
  · omega

theorem reads_item {item : Bytes × Bytes} (hk : item.1.length ≤ MAX_SIZE)
    (hv : item.2.length ≤ MAX_SIZE) : Reads unserializeItem (serializeItem item) item :=
  (reads_bytes hk).bind ((reads_bytes hv).map fun v => (item.1, v))

theorem size_positionMap (nOrderPos : Int64) : (positionMap nOrderPos).size = 1 := by
  rw [← Std.ExtTreeMap.length_toList, toList_positionMap]
  rfl

/-- The map with the order position is read back. -/
theorem reads_positionMap (nOrderPos : Int64) :
    Reads unserializeMap (serializeMap (positionMap nOrderPos)) (positionMap nOrderPos) := by
  have hlen := length_i64tostr_le nOrderPos
  have hmax : MAX_SIZE = 0x02000000 := rfl
  have hitems : Reads (readN unserializeItem 1) ([(keyN, i64tostr nOrderPos)].flatMap serializeItem)
      [(keyN, i64tostr nOrderPos)] := by
    have hitem : ∀ item ∈ [(keyN, i64tostr nOrderPos)],
        Reads unserializeItem (serializeItem item) item := by
      rw [List.forall_mem_singleton]
      exact reads_item (show 1 ≤ MAX_SIZE by decide) (show (i64tostr nOrderPos).length ≤ _ by omega)
    exact reads_readN hitem
  have hmap : [(keyN, i64tostr nOrderPos)].foldl (fun m item => m.insertIfNew item.1 item.2)
      (∅ : MapValue) = positionMap nOrderPos := by
    refine Std.ExtTreeMap.ext_getElem? fun k => ?_
    rw [List.foldl_cons, List.foldl_nil, positionMap, Std.ExtTreeMap.getElem?_insertIfNew,
      Std.ExtTreeMap.getElem?_insert]
    simp
  unfold serializeMap
  rw [size_positionMap, toList_positionMap, ← hmap]
  exact (reads_compactSize (by decide)).bind (hitems.map _)

/-- What is appended to the comment. -/
def appended (nOrderPos : Int64) : Bytes :=
  if nOrderPos = -1 then [] else 0 :: serializeMap (positionMap nOrderPos)

/-- How much is appended to the comment : five bytes and the digits. -/
theorem length_appended (nOrderPos : Int64) : (appended nOrderPos).length =
    if nOrderPos = -1 then 0 else 5 + (i64tostr nOrderPos).length := by
  have hlen := length_i64tostr_le nOrderPos
  have hsmall : ∀ n < 253, (writeCompactSize n).length = 1 := fun n hn => by
    rw [writeCompactSize, if_pos hn, length_leBytes]
  unfold appended
  split
  · rfl
  · unfold serializeMap
    rw [size_positionMap, toList_positionMap]
    simp only [List.flatMap_cons, List.flatMap_nil, List.append_nil, List.length_cons,
      List.length_append, serializeItem, serializeBytes, hsmall 1 (by decide)]
    rw [hsmall keyN.length (by decide), hsmall (i64tostr nOrderPos).length (by omega)]
    rw [show keyN.length = 1 from rfl]
    omega

/-! ## Records are read back -/

/-- An entry as `move` stores it : `AccountFromValue` refuses the name `*`. -/
def StoredByMove (e : CAccountingEntry) : Prop :=
  ∃ strFrom strTo strComment nAmount nNow nPosDebit nPosCredit,
    strFrom ≠ asciiBytes "*" ∧ strTo ≠ asciiBytes "*" ∧
      (e = (movecmd strFrom strTo strComment nAmount nNow nPosDebit nPosCredit).1 ∨
        e = (movecmd strFrom strTo strComment nAmount nNow nPosDebit nPosCredit).2)

/-- A record is read, as the entry that was written. -/
def ReadsBack (record : Record) (e : CAccountingEntry) : Prop :=
  ∃ e', record.read = .ok e' ∧ e'.strAccount = e.strAccount ∧ e'.nCreditDebit = e.nCreditDebit ∧
    e'.nTime = e.nTime ∧ e'.strOtherAccount = e.strOtherAccount ∧ e'.strComment = e.strComment ∧
    e'.nOrderPos = e.nOrderPos

/-- The texts are within the limit, with what is appended to the comment, and it has no zero
byte. -/
structure Fits (e : CAccountingEntry) : Prop where
  other : e.strOtherAccount.length ≤ commentLimit
  comment : e.strComment.length +
    (if e.nOrderPos = -1 then 0 else 5 + (i64tostr e.nOrderPos).length) ≤ commentLimit
  noZero : (0 : UInt8) ∉ e.strComment

theorem StoredByMove.combinedComment {e : CAccountingEntry} (h : StoredByMove e) :
    e.combinedComment = e.strComment ++ appended e.nOrderPos := by
  obtain ⟨hmap, hextra⟩ : e.mapValue = ∅ ∧ e.ssExtra = [] := by
    obtain ⟨_, _, _, _, _, _, _, -, -, rfl | rfl⟩ := h <;> exact ⟨rfl, rfl⟩
  unfold CAccountingEntry.combinedComment writeOrderPos appended positionMap
  rw [hmap, hextra]
  split
  · rw [if_pos ⟨Std.ExtTreeMap.isEmpty_empty, rfl⟩, List.append_nil]
  · rw [if_neg (by simp), List.append_nil]

/-- A record is read in the order it was written. -/
theorem read_eq (nAccEntryNum : UInt64) (e : CAccountingEntry) :
    (writeAccountingEntry nAccEntryNum e).read = do
      let (strOtherAccount, s) ← unserializeLimited commentLimit
        (serializeBytes e.strOtherAccount ++ serializeBytes e.combinedComment)
      let (strComment, _) ← unserializeLimited commentLimit s
      let (mapValue, ssExtra) ← CAccountingEntry.splitComment [] strComment
      return {
        strAccount := e.strAccount
        nCreditDebit := e.nCreditDebit
        nTime := e.nTime
        strOtherAccount := strOtherAccount
        strComment := strComment.takeWhile (· ≠ 0)
        nOrderPos := readOrderPos mapValue
        mapValue := mapValue.erase keyN
        ssExtra := ssExtra
        nEntryNo := nAccEntryNum } := by
  unfold Record.read writeAccountingEntry CAccountingEntry.serialize CAccountingEntry.unserialize
  dsimp only
  rw [bind_of_reads (reads_int32 _), bind_of_reads (reads_int64 _), bind_of_reads (reads_int64 _)]
  change ((unserializeLimited commentLimit (serializeBytes e.strOtherAccount ++
    serializeBytes e.combinedComment) >>= _) >>= _) = _
  cases unserializeLimited commentLimit (serializeBytes e.strOtherAccount ++
    serializeBytes e.combinedComment) with
  | error err => rfl
  | ok r =>
    change ((unserializeLimited commentLimit r.2 >>= _) >>= _) =
      (unserializeLimited commentLimit r.2 >>= _)
    cases unserializeLimited commentLimit r.2 with
    | error err => rfl
    | ok r =>
      change (((CAccountingEntry.splitComment [] r.1 >>= _) >>= _) >>= _) =
        (CAccountingEntry.splitComment [] r.1 >>= _)
      cases CAccountingEntry.splitComment [] r.1 with
      | error err => rfl
      | ok r => rfl

/-- A comment without a zero byte is split from what was appended. -/
theorem splitComment_appended {strComment : Bytes} (h : (0 : UInt8) ∉ strComment)
    (nOrderPos : Int64) : ∃ mapValue,
      CAccountingEntry.splitComment [] (strComment ++ appended nOrderPos) = .ok (mapValue, []) ∧
        readOrderPos mapValue = nOrderPos ∧
        (strComment ++ appended nOrderPos).takeWhile (· ≠ 0) = strComment := by
  have hall : ∀ c ∈ strComment, decide (c ≠ 0) = true := fun c hc =>
    decide_eq_true fun heq => h (heq ▸ hc)
  unfold CAccountingEntry.splitComment appended
  by_cases hnone : nOrderPos = -1
  · rw [if_pos hnone, List.append_nil, List.dropWhile_eq_nil_iff.mpr hall,
      List.takeWhile_eq_self_iff.mpr hall]
    exact ⟨∅, rfl, hnone.symm, rfl⟩
  · rw [if_neg hnone, List.dropWhile_append_of_pos hall, List.takeWhile_append_of_pos hall,
      List.dropWhile_cons_of_neg (by decide), List.takeWhile_cons_of_neg (by decide),
      List.append_nil]
    have hread := reads_positionMap nOrderPos []
    rw [List.append_nil] at hread
    exact ⟨positionMap nOrderPos, hread, readOrderPos_positionMap nOrderPos, rfl⟩

/-- A record is read back exactly if its texts fit and the comment has no zero byte. -/
theorem readsBack_iff_fits (nAccEntryNum : UInt64) {e : CAccountingEntry} (h : StoredByMove e) :
    ReadsBack (writeAccountingEntry nAccEntryNum e) e ↔ Fits e := by
  have hcombined := h.combinedComment
  have hlen : e.combinedComment.length = e.strComment.length +
      (if e.nOrderPos = -1 then 0 else 5 + (i64tostr e.nOrderPos).length) := by
    rw [hcombined, List.length_append, length_appended]
  unfold ReadsBack
  rw [read_eq]
  constructor
  · rintro ⟨e', hread, -, -, -, -, hcomment, -⟩
    obtain ⟨⟨strOtherAccount, s⟩, hother, hread⟩ := Outcome.bind_eq_ok.mp hread
    obtain ⟨⟨strComment, s'⟩, hcomment', hread⟩ := Outcome.bind_eq_ok.mp hread
    obtain ⟨⟨mapValue, ssExtra⟩, hsplit, hread⟩ := Outcome.bind_eq_ok.mp hread
    cases hread
    have hotherLe : e.strOtherAccount.length ≤ commentLimit := by
      by_contra hlong
      obtain ⟨err, herr⟩ := unserializeLimited_eq.2 (not_le.mp hlong)
        (serializeBytes e.combinedComment)
      rw [hother] at herr
      cases herr
    rw [unserializeLimited_eq.1 hotherLe] at hother
    cases hother
    have hcommentLe : e.combinedComment.length ≤ commentLimit := by
      by_contra hlong
      obtain ⟨err, herr⟩ := unserializeLimited_eq.2 (not_le.mp hlong) []
      rw [List.append_nil, hcomment'] at herr
      cases herr
    have hback := unserializeLimited_eq.1 hcommentLe []
    rw [List.append_nil, hcomment'] at hback
    cases hback
    refine ⟨hotherLe, hlen ▸ hcommentLe, fun hzero => ?_⟩
    dsimp only at hcomment
    rw [← hcomment] at hzero
    have hne := List.mem_takeWhile_imp hzero
    simp at hne
  · intro hfits
    obtain ⟨mapValue, hsplit, hpos, htake⟩ := splitComment_appended hfits.noZero e.nOrderPos
    have hback := unserializeLimited_eq.1 (hlen ▸ hfits.comment) []
    rw [List.append_nil] at hback
    rw [unserializeLimited_eq.1 hfits.other]
    change ∃ e', (unserializeLimited commentLimit (serializeBytes e.combinedComment) >>= _) = _ ∧ _
    rw [hback]
    change ∃ e', (CAccountingEntry.splitComment [] e.combinedComment >>= _) = _ ∧ _
    rw [hcombined, hsplit]
    exact ⟨_, rfl, rfl, rfl, rfl, rfl, htake, hpos⟩

/-- All records of a wallet are read back, and no account is without its list, exactly if all of
them fit. -/
theorem readsBack_iff {es : List (UInt64 × CAccountingEntry)} (h : ∀ e ∈ es, StoredByMove e.2) :
    ((∀ e ∈ es, ReadsBack (writeAccountingEntry e.1 e.2) e.2) ∧
      ∀ strAccount, ∃ entries, listAccountCreditDebit strAccount
        (es.map fun e => writeAccountingEntry e.1 e.2) = .ok entries) ↔ ∀ e ∈ es, Fits e.2 := by
  have hiff : (∀ e ∈ es, ReadsBack (writeAccountingEntry e.1 e.2) e.2) ↔ ∀ e ∈ es, Fits e.2 :=
    forall₂_congr fun e he => readsBack_iff_fits e.1 (h e he)
  rw [hiff]
  refine ⟨And.left, fun hfits => ⟨hfits, fun strAccount => ?_⟩⟩
  unfold listAccountCreditDebit
  have hread : ∀ record ∈ (es.map fun e => writeAccountingEntry e.1 e.2).filter fun record =>
      strAccount = asciiBytes "*" ∨ record.strAccount = strAccount,
      Outcome.Ends (fun _ => True) (fun _ => False) record.read := by
    intro record hrecord
    obtain ⟨e, he, rfl⟩ := List.mem_map.mp (List.mem_of_mem_filter hrecord)
    obtain ⟨e', hread, -⟩ := hiff.mpr hfits e he
    rw [hread]
    exact trivial
  have hlist := Outcome.Ends.mapM hread
  cases hentries : List.mapM Record.read ((es.map fun e => writeAccountingEntry e.1 e.2).filter
      fun record => strAccount = asciiBytes "*" ∨ record.strAccount = strAccount) with
  | ok entries => exact ⟨entries, rfl⟩
  | error err => exact (hlist.of_error hentries).elim

/-- The credit of a move of `5` from the default account to the account `b`, at the position `1`. -/
def sampleCredit (strComment : Bytes) : CAccountingEntry :=
  (movecmd [] [98] strComment 5 7 0 1).2

theorem storedByMove_sampleCredit (strComment : Bytes) : StoredByMove (sampleCredit strComment) :=
  ⟨[], [98], strComment, 5, 7, 0, 1, by decide, by decide, .inr rfl⟩

theorem fits_sampleCredit : Fits (sampleCredit [104, 105]) where
  other := by decide
  comment := by decide
  noZero := by decide

theorem readsBack_iff_plain :
    ReadsBack (writeAccountingEntry 1 (sampleCredit [104, 105])) (sampleCredit [104, 105]) := by
  have hstored : ∀ e ∈ [((1 : UInt64), sampleCredit [104, 105])], StoredByMove e.2 := by
    rw [List.forall_mem_singleton]
    exact storedByMove_sampleCredit _
  have hfits : ∀ e ∈ [((1 : UInt64), sampleCredit [104, 105])], Fits e.2 := by
    rw [List.forall_mem_singleton]
    exact fits_sampleCredit
  have hreads := ((readsBack_iff hstored).mpr hfits).1
  rw [List.forall_mem_singleton] at hreads
  exact hreads

/-- A comment with a zero byte : the record is not read at all, nor the list of its account. -/
theorem not_readsBack :
    ¬ReadsBack (writeAccountingEntry 1 (sampleCredit [97, 0, 98])) (sampleCredit [97, 0, 98]) ∧
      ¬∃ entries, listAccountCreditDebit [98]
        [writeAccountingEntry 1 (sampleCredit [97, 0, 98])] = .ok entries := by
  have hread : (writeAccountingEntry 1 (sampleCredit [97, 0, 98])).read.toOption.isNone = true ∧
      (listAccountCreditDebit [98]
        [writeAccountingEntry 1 (sampleCredit [97, 0, 98])]).toOption.isNone = true := by
    decide
  constructor
  · rintro ⟨e', h, -⟩
    rw [h] at hread
    exact Bool.false_ne_true hread.1
  · rintro ⟨entries, h⟩
    rw [h] at hread
    exact Bool.false_ne_true hread.2

end AcEntry

end Ticoin
