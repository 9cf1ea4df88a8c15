import Ticoin.NetAddress
import Ticoin.Core
import Ticoin.Lib.Table

/-!
# addrman.cpp : the stochastic address manager

Addresses that were not tried are in up to four of 256 "new" buckets each, those that were
are in one of 64 "tried" buckets. An address that is added to a full new bucket makes room in
it (`ShrinkNew`), and one that is moved to a full tried bucket evicts another one, back to a
new bucket (`MakeTried`).

The choices of `GetRandInt` are inputs, and so is the clock. A failed assertion, a list read
out of its bounds and the overflow of an `int` are `none`.
-/

namespace Ticoin

open Codec

/-! ## Parameters -/

/-- Total number of buckets for tried addresses. -/
abbrev ADDRMAN_TRIED_BUCKET_COUNT : ℕ := 64

/-- Maximum allowed number of entries in buckets for tried addresses. -/
def ADDRMAN_TRIED_BUCKET_SIZE : ℕ := 64

/-- Total number of buckets for new addresses. -/
abbrev ADDRMAN_NEW_BUCKET_COUNT : ℕ := 256

/-- Maximum allowed number of entries in buckets for new addresses. -/
def ADDRMAN_NEW_BUCKET_SIZE : ℕ := 64

/-- Over how many buckets entries with tried addresses from a single group are spread. -/
def ADDRMAN_TRIED_BUCKETS_PER_GROUP : ℕ := 4

/-- Over how many buckets entries with new addresses from a single group are spread. -/
def ADDRMAN_NEW_BUCKETS_PER_SOURCE_GROUP : ℕ := 32

/-- In how many buckets for entries with new addresses a single address may occur. -/
def ADDRMAN_NEW_BUCKETS_PER_ADDRESS : ℤ := 4

/-- How many entries in a bucket with tried addresses are inspected, when selecting one to
replace. -/
def ADDRMAN_TRIED_ENTRIES_INSPECT_ON_EVICT : ℕ := 4

/-- How old addresses can maximally be. -/
def ADDRMAN_HORIZON_DAYS : ℤ := 30

/-- After how many failed attempts we give up on a new node. -/
def ADDRMAN_RETRIES : ℤ := 3

/-- How many successive failures are allowed … -/
def ADDRMAN_MAX_FAILURES : ℤ := 10

/-- … in at least this many days. -/
def ADDRMAN_MIN_FAIL_DAYS : ℤ := 7

/-! ## Entries -/

/-- Extended statistics about an address. -/
structure CAddrInfo extends CAddress where
  /-- where knowledge about this address first came from -/
  source : CNetAddr
  /-- last successful connection by us -/
  nLastSuccess : Int64
  /-- connection attempts since last successful attempt -/
  nAttempts : Int32
  /-- reference count in new sets (memory only) -/
  nRefCount : ℤ
  /-- in tried set? (memory only) -/
  fInTried : Bool
  /-- position in vRandom -/
  nRandomPos : ℤ
  deriving DecidableEq, Repr

/-- `CAddrInfo(addr, addrSource)`. -/
def CAddrInfo.ofAddress (addr : CAddress) (addrSource : CNetAddr) : CAddrInfo where
  toCAddress := { addr with nLastTry := 0 }
  source := addrSource
  nLastSuccess := 0
  nAttempts := 0
  nRefCount := 0
  fInTried := false
  nRandomPos := -1

/-- `CAddrInfo()`. -/
def CAddrInfo.init : CAddrInfo :=
  .ofAddress { ip := 0, port := 0, nServices := 1, nTime := 100000000, nLastTry := 0 } 0

section Buckets

variable (H : Bytes → UInt256) (nKey : Bytes)

/-- `Hash` of a stream, and the low 64 bits of it. -/
def hashLow64 (ss : Bytes) : ℕ := (H ss).toNat % 2 ^ 64

/-- Which "tried" bucket an entry belongs in. -/
def CAddrInfo.getTriedBucket (info : CAddrInfo) : Fin ADDRMAN_TRIED_BUCKET_COUNT :=
  let hash1 := hashLow64 H (serializeBytes nKey ++ serializeBytes info.getKey)
  let hash2 := hashLow64 H (serializeBytes nKey ++ serializeBytes info.ip.getGroup ++
    leBytes 8 (hash1 % ADDRMAN_TRIED_BUCKETS_PER_GROUP))
  Fin.ofNat _ hash2

/-- Which "new" bucket an entry belongs in, given a certain source. -/
def CAddrInfo.getNewBucket (info : CAddrInfo) (src : CNetAddr) : Fin ADDRMAN_NEW_BUCKET_COUNT :=
  let hash1 := hashLow64 H (serializeBytes nKey ++ serializeBytes info.ip.getGroup ++
    serializeBytes src.getGroup)
  let hash2 := hashLow64 H (serializeBytes nKey ++ serializeBytes src.getGroup ++
    leBytes 8 (hash1 % ADDRMAN_NEW_BUCKETS_PER_SOURCE_GROUP))
  Fin.ofNat _ hash2

end Buckets

/-- Whether the statistics about an entry are bad enough so that it can just be deleted. -/
def CAddrInfo.isTerrible (nNow : ℤ) (info : CAddrInfo) : Bool :=
  let nLastTry := info.nLastTry.toInt
  let nTime : ℤ := info.nTime.toNat
  let nLastSuccess := info.nLastSuccess.toInt
  let nAttempts := info.nAttempts.toInt
  -- never remove things tried the last minute
  if nLastTry ≠ 0 ∧ nLastTry ≥ nNow - 60 then false
  -- came in a flying DeLorean
  else if nTime > nNow + 10 * 60 then true
  -- not seen in over a month
  else if nTime = 0 ∨ nNow - nTime > ADDRMAN_HORIZON_DAYS * 86400 then true
  -- tried three times and never a success
  else if nLastSuccess = 0 ∧ nAttempts ≥ ADDRMAN_RETRIES then true
  -- 10 successive failures in the last week
  else nNow - nLastSuccess > ADDRMAN_MIN_FAIL_DAYS * 86400 ∧ nAttempts ≥ ADDRMAN_MAX_FAILURES

/-! ## The manager -/

abbrev MapInfo := Std.ExtTreeMap ℤ CAddrInfo

abbrev MapAddr := Std.ExtTreeMap CNetAddr ℤ

structure CAddrMan where
  /-- secret key to randomize bucket select with -/
  nKey : Bytes
  /-- last used nId -/
  nIdCount : ℤ := 0
  /-- table with information about all nIds -/
  mapInfo : MapInfo := ∅
  /-- find an nId based on its network address -/
  mapAddr : MapAddr := ∅
  /-- randomly-ordered vector of all nIds -/
  vRandom : List ℤ := []
  /-- number of "tried" entries -/
  nTried : ℤ := 0
  /-- list of "tried" buckets -/
  vvTried : Fin ADDRMAN_TRIED_BUCKET_COUNT → List ℤ := fun _ => []
  /-- number of (unique) "new" entries -/
  nNew : ℤ := 0
  /-- list of "new" buckets -/
  vvNew : Fin ADDRMAN_NEW_BUCKET_COUNT → Std.ExtTreeSet ℤ := fun _ => ∅

/-- `GetRandInt`, with some choice. -/
def getRandInt (choice nMax : ℕ) : ℕ := if nMax = 0 then 0 else choice % nMax

/-- `mapInfo[nId]`, which inserts an entry if there is none. -/
def MapInfo.get (m : MapInfo) (nId : ℤ) : CAddrInfo × MapInfo :=
  match m[nId]? with
  | some info => (info, m)
  | none => (CAddrInfo.init, m.insert nId CAddrInfo.init)

namespace CAddrMan

/-- The entry of an address, if there is one. -/
def find (addr : CNetAddr) (s : CAddrMan) : Option (ℤ × CAddrInfo) := do
  let nId ← s.mapAddr[addr]?
  let info ← s.mapInfo[nId]?
  some (nId, info)

/-- An entry is changed in place. -/
def setInfo (nId : ℤ) (info : CAddrInfo) (s : CAddrMan) : CAddrMan :=
  { s with mapInfo := s.mapInfo.insert nId info }

/-- `Create`, where the caller changes the entry before it is put. -/
def create (addr : CAddress) (addrSource : CNetAddr) (f : CAddrInfo → CAddrInfo) (s : CAddrMan) :
    Option (ℤ × CAddrMan) :=
  if s.nIdCount < 2147483647 then
    let nId := s.nIdCount
    some (nId,
      { s with
        nIdCount := s.nIdCount + 1
        mapInfo := s.mapInfo.insert nId
          (f { CAddrInfo.ofAddress addr addrSource with nRandomPos := s.vRandom.length })
        mapAddr := s.mapAddr.insert addr.ip nId
        vRandom := s.vRandom ++ [nId] })
  else none

/-- Swap two elements in vRandom. -/
def swapRandom (nRndPos1 nRndPos2 : ℕ) (s : CAddrMan) : Option CAddrMan :=
  if nRndPos1 = nRndPos2 then some s
  else do
    let nId1 ← s.vRandom[nRndPos1]?
    let nId2 ← s.vRandom[nRndPos2]?
    let info1 ← s.mapInfo[nId1]?
    let info2 ← s.mapInfo[nId2]?
    some { s with
      mapInfo := (s.mapInfo.insert nId1 { info1 with nRandomPos := nRndPos2 }).insert nId2
        { info2 with nRandomPos := nRndPos1 }
      vRandom := (s.vRandom.set nRndPos1 nId2).set nRndPos2 nId1 }

/-! ## ShrinkNew -/

/-- An entry is deleted, which is swapped to the end of `vRandom` for that. -/
def deleteInfo (nId : ℤ) (info : CAddrInfo) (s : CAddrMan) : Option CAddrMan :=
  (s.swapRandom info.nRandomPos.toNat (s.vRandom.length - 1)).map fun s =>
    { s with
      vRandom := s.vRandom.dropLast
      mapAddr := s.mapAddr.erase info.ip
      mapInfo := s.mapInfo.erase nId
      nNew := s.nNew - 1 }

/-- The reference count is lowered, and the entry deleted if it gets zero. -/
def unref (nId : ℤ) (info : CAddrInfo) (s : CAddrMan) : Option CAddrMan :=
  let s := s.setInfo nId { info with nRefCount := info.nRefCount - 1 }
  if info.nRefCount - 1 = 0 then s.deleteInfo nId info else some s

/-- An element is taken out of a new bucket, as `ShrinkNew` does in two places. -/
def removeFromNew (nUBucket : Fin ADDRMAN_NEW_BUCKET_COUNT) (nId : ℤ) (s : CAddrMan) :
    Option CAddrMan := do
  let info ← s.mapInfo[nId]?
  let s ← s.unref nId info
  some { s with vvNew := Function.update s.vvNew nUBucket ((s.vvNew nUBucket).erase nId) }

/-- The first deletable item of a bucket ; the outer `none` if one is not in `mapInfo`. -/
def findTerrible (nNow : ℤ) (m : MapInfo) : List ℤ → Option (Option ℤ)
  | [] => some none
  | nId :: ids =>
    match m[nId]? with
    | none => none
    | some info => if info.isTerrible nNow then some (some nId) else findTerrible nNow m ids

/-- The oldest one of the items at the places chosen, which are asserted to be in `mapInfo` but
for the first one. -/
def findOldest (n : List ℕ) : ℕ → List ℤ → Option ℤ → MapInfo → Option (Option ℤ × MapInfo)
  | _, [], nOldest, m => some (nOldest, m)
  | nI, nId :: ids, nOldest, m =>
    if n.contains nI then
      match nOldest with
      | none => findOldest n (nI + 1) ids (some nId) m
      | some old =>
        match m[nId]? with
        | none => none
        | some info =>
          let (infoOld, m) := m.get old
          if info.nTime < infoOld.nTime then findOldest n (nI + 1) ids (some nId) m
          else findOldest n (nI + 1) ids (some old) m
    else findOldest n (nI + 1) ids nOldest m

/-- Remove an element from a "new" bucket. This is the only place where actual deletes occur. -/
def shrinkNew (nNow : ℤ) (rnd : ℕ → ℕ) (nUBucket : Fin ADDRMAN_NEW_BUCKET_COUNT) (s : CAddrMan) :
    Option CAddrMan := do
  let vNew := s.vvNew nUBucket
  match ← findTerrible nNow s.mapInfo vNew.toList with
  | some nId => s.removeFromNew nUBucket nId
  | none =>
    -- otherwise, select four randomly, and pick the oldest of those to replace
    let n := (List.range 4).map fun i => getRandInt (rnd i) vNew.size
    let (nOldest, m) ← findOldest n 0 vNew.toList none s.mapInfo
    removeFromNew nUBucket (← nOldest) { s with mapInfo := m }

/-! ## MakeTried -/

/-- The loop of `SelectTried` : an element is swapped to each of the first places, and the
position is chosen of the one that was tried least recently. -/
def selectLoop (rnd : ℕ → ℕ) : ℕ → ℕ → Option (ℤ × ℕ) → List ℤ → MapInfo →
    Option (Option (ℤ × ℕ) × List ℤ × MapInfo)
  | 0, _, oldest, vTried, m => some (oldest, vTried, m)
  | fuel + 1, i, oldest, vTried, m =>
    if i < vTried.length then do
      let nPos := getRandInt (rnd i) (vTried.length - i) + i
      let nTemp ← vTried[nPos]?
      let first ← vTried[i]?
      let vTried := (vTried.set nPos first).set i nTemp
      match oldest with
      | none => selectLoop rnd fuel (i + 1) (some (nTemp, nPos)) vTried m
      | some (nOldest, _) =>
        let info ← m[nTemp]?
        let (infoOld, m) := MapInfo.get m nOldest
        if info.nLastSuccess < infoOld.nLastSuccess then
          selectLoop rnd fuel (i + 1) (some (nTemp, nPos)) vTried m
        else selectLoop rnd fuel (i + 1) oldest vTried m
    else some (oldest, vTried, m)

/-- The position in a tried bucket to replace, after the bucket was shuffled. -/
def selectTried (rnd : ℕ → ℕ) (nKBucket : Fin ADDRMAN_TRIED_BUCKET_COUNT) (s : CAddrMan) :
    Option (ℕ × CAddrMan) := do
  let (oldest, vTried, m) ← selectLoop rnd ADDRMAN_TRIED_ENTRIES_INSPECT_ON_EVICT 0 none
    (s.vvTried nKBucket) s.mapInfo
  let (_, nPos) ← oldest
  some (nPos, { s with vvTried := Function.update s.vvTried nKBucket vTried, mapInfo := m })

/-- Remove an entry from all new buckets, with the number of those it was in. -/
def eraseFromNew (nId : ℤ) (s : CAddrMan) : ℕ × CAddrMan :=
  ((List.finRange ADDRMAN_NEW_BUCKET_COUNT).countP fun b => (s.vvNew b).contains nId,
    { s with vvNew := fun b => (s.vvNew b).erase nId })

/-- A tried entry goes back to a new bucket : the one it belongs in if there is place, or the
one where the entry comes from that takes its place. -/
def evict (H : Bytes → UInt256) (nOld : ℤ) (nOrigin : Fin ADDRMAN_NEW_BUCKET_COUNT) (s : CAddrMan) :
    Option CAddrMan := do
  let infoOld ← s.mapInfo[nOld]?
  let nUBucket := infoOld.getNewBucket H s.nKey infoOld.source
  let b := if (s.vvNew nUBucket).size < ADDRMAN_NEW_BUCKET_SIZE then nUBucket else nOrigin
  some { s.setInfo nOld { infoOld with fInTried := false, nRefCount := 1 } with
    vvNew := Function.update s.vvNew b ((s.vvNew b).insert nOld)
    nNew := s.nNew + 1 }

/-- Move an entry from the "new" table(s) to the "tried" table. -/
def makeTried (H : Bytes → UInt256) (rnd : ℕ → ℕ) (nId : ℤ)
    (nOrigin : Fin ADDRMAN_NEW_BUCKET_COUNT) (s : CAddrMan) : Option CAddrMan := do
  let info ← s.mapInfo[nId]?
  if !(s.vvNew nOrigin).contains nId then none
  else
    let (count, s) := s.eraseFromNew nId
    let s := { s with nNew := s.nNew - 1 }
    if info.nRefCount - count ≠ 0 then none
    else
      let nKBucket := info.getTriedBucket H s.nKey
      let s := s.setInfo nId { info with nRefCount := 0 }
      -- first check whether there is place to just add it
      if (s.vvTried nKBucket).length < ADDRMAN_TRIED_BUCKET_SIZE then
        some { s.setInfo nId { info with nRefCount := 0, fInTried := true } with
          vvTried := Function.update s.vvTried nKBucket (s.vvTried nKBucket ++ [nId])
          nTried := s.nTried + 1 }
      else
        -- otherwise, find an item to evict
        let (nPos, s) ← s.selectTried rnd nKBucket
        let nOld ← (s.vvTried nKBucket)[nPos]?
        let s ← s.evict H nOld nOrigin
        let info ← s.mapInfo[nId]?
        some { s.setInfo nId { info with fInTried := true } with
          vvTried := Function.update s.vvTried nKBucket ((s.vvTried nKBucket).set nPos nId) }

/-! ## Good_, Add_, Attempt_ and Connected_ -/

variable (H : Bytes → UInt256)

/-- Mark an entry "good", possibly moving it from "new" to "tried". -/
def good (rnd : ℕ → ℕ) (addr : CService) (nTime : Int64) (s : CAddrMan) : Option CAddrMan :=
  match s.find addr.ip with
  | none => some s
  | some (nId, info) =>
    -- whether we are talking about the exact same service (including same port)
    if info.toCService ≠ addr then some s
    else
      let s := s.setInfo nId { info with
        nLastSuccess := nTime
        nLastTry := nTime
        nTime := UInt32.ofInt nTime.toInt
        nAttempts := 0 }
      if info.fInTried then some s
      else
        let nRnd := getRandInt (rnd 0) ADDRMAN_NEW_BUCKET_COUNT
        let nB := fun n => Fin.ofNat ADDRMAN_NEW_BUCKET_COUNT (n + nRnd)
        match (List.range ADDRMAN_NEW_BUCKET_COUNT).find? fun n => (s.vvNew (nB n)).contains nId with
        | none => some s
        | some n => s.makeTried H (fun i => rnd (i + 1)) nId (nB n)

/-- Make room in a bucket that is full. -/
def makeRoom (nNow : ℤ) (rnd : ℕ → ℕ) (nUBucket : Fin ADDRMAN_NEW_BUCKET_COUNT) (s : CAddrMan) :
    Option CAddrMan :=
  if (s.vvNew nUBucket).size = ADDRMAN_NEW_BUCKET_SIZE then s.shrinkNew nNow rnd nUBucket else some s

/-- The end of `Add_` : the entry is put into the bucket of the source. -/
def addToNew (nNow : ℤ) (rnd : ℕ → ℕ) (nId : ℤ) (source : CNetAddr) (s : CAddrMan) :
    Option CAddrMan := do
  let info ← s.mapInfo[nId]?
  let nUBucket := info.getNewBucket H s.nKey source
  if (s.vvNew nUBucket).contains nId then some s
  else
    let s := s.setInfo nId { info with nRefCount := info.nRefCount + 1 }
    let s ← s.makeRoom nNow rnd nUBucket
    some { s with vvNew := Function.update s.vvNew nUBucket ((s.vvNew nUBucket).insert nId) }

/-- An entry that is there gets the time, if it is newer, and the services of the address. -/
def updateInfo (nNow : ℤ) (addr : CAddress) (nTimePenalty : ℤ) (info : CAddrInfo) : CAddrInfo :=
  let fCurrentlyOnline := nNow - addr.nTime.toNat < 24 * 60 * 60
  let nUpdateInterval : ℤ := if fCurrentlyOnline then 60 * 60 else 24 * 60 * 60
  { info with
    nTime := if addr.nTime ≠ 0 ∧ (info.nTime = 0 ∨
        (info.nTime.toNat : ℤ) < addr.nTime.toNat - nUpdateInterval - nTimePenalty) then
      UInt32.ofInt (max 0 (addr.nTime.toNat - nTimePenalty)) else info.nTime
    nServices := info.nServices ||| addr.nServices }

/-- Whether an entry that is there gets into another bucket. -/
def wantsBucket (addr : CAddress) (choice : ℕ) (info : CAddrInfo) : Bool :=
  -- do not update if no new information is present
  if addr.nTime = 0 ∨ (info.nTime ≠ 0 ∧ addr.nTime ≤ info.nTime) then false
  else if info.fInTried then false
  else if info.nRefCount = ADDRMAN_NEW_BUCKETS_PER_ADDRESS then false
  else
    -- previous nRefCount == N : 2^N times harder to increase it
    let nFactor := 2 ^ info.nRefCount.toNat
    !(decide (nFactor > 1) && getRandInt choice nFactor != 0)

/-- Add an entry to the "new" table. -/
def add (nNow : ℤ) (rnd : ℕ → ℕ) (addr : CAddress) (source : CNetAddr) (nTimePenalty : ℤ)
    (s : CAddrMan) : Option (Bool × CAddrMan) :=
  if !addr.ip.isRoutable then some (false, s)
  else
    match s.find addr.ip with
    | some (nId, info) =>
      let info := updateInfo nNow addr nTimePenalty info
      let s := s.setInfo nId info
      if wantsBucket addr (rnd 0) info then
        (s.addToNew H nNow (fun i => rnd (i + 1)) nId source).map fun s => (false, s)
      else some (false, s)
    | none => do
      let (nId, s) ← s.create addr source fun info =>
        { info with nTime := UInt32.ofInt (max 0 (info.nTime.toNat - nTimePenalty)) }
      (addToNew H nNow rnd nId source { s with nNew := s.nNew + 1 }).map fun s => (true, s)

/-- Mark an entry as attempted to connect. -/
def attempt (addr : CService) (nTime : Int64) (s : CAddrMan) : Option CAddrMan :=
  match s.find addr.ip with
  | none => some s
  | some (nId, info) =>
    if info.toCService ≠ addr then some s
    else if info.nAttempts = Int32.maxValue then none
    else some (s.setInfo nId { info with nLastTry := nTime, nAttempts := info.nAttempts + 1 })

/-- Mark an entry as currently-connected-to. -/
def connected (addr : CService) (nTime : Int64) (s : CAddrMan) : CAddrMan :=
  match s.find addr.ip with
  | none => s
  | some (nId, info) =>
    if info.toCService ≠ addr then s
    else if nTime.toInt - info.nTime.toNat > 20 * 60 then
      s.setInfo nId { info with nTime := UInt32.ofInt nTime.toInt }
    else s

end CAddrMan

end Ticoin
