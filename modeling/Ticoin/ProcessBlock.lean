import Ticoin.Validation
import Ticoin.WireFormat
import Ticoin.BestChain

/-!
# ProcessBlock : the block index and the orphan blocks

A block whose predecessor is not indexed waits in the orphan pool, serialized, by its hash
in `mapOrphanBlocks` and by that of its predecessor in `mapOrphanBlocksByPrev`. When a block
is accepted, the orphans that waited for it are taken out and accepted in turn, through a
work queue that grows in place.

A call takes what it reads from outside with it : the clock, the random number with which
an orphan is evicted, and how each access to storage comes out. `MakeBlockIndex` is the part
of `AddToBlockIndex` that makes the entry. Calls of `ActivateBestChain` take fuel, and so
does the queue.
-/

namespace Ticoin

open Codec

/-! ## The state of a node -/

structure COrphanBlock where
  hashBlock : UInt256
  hashPrev : UInt256
  vchBlock : Bytes
  deriving DecidableEq, Repr

/-- What does not change while a node runs : its parameters, where new entries are put, and
what connecting a block comes to. -/
structure NodeEnv where
  params : ChainParams
  checkpoints : List (ℕ × UInt256)
  nMaxOrphanBlocks : ℕ
  addressOf : ℕ → ℕ
  addressOf_injective : Function.Injective addressOf
  blocks : BlockEnv

/-- Where a call uses storage. -/
inductive IOPoint
  | findBlockPos
  | writeBlockToDisk
  | writeBlockIndex
  | flush
  deriving DecidableEq, Repr

/-- A call of `ProcessBlock` : its arguments, and what it reads from outside. -/
structure Arrival where
  block : CBlock
  /-- whether there is a node to request parents from -/
  fFrom : Bool
  /-- whether the block is on disk already -/
  fKnown : Bool
  nAdjustedTime : ℤ
  insecureRand : ℕ
  io : IOPoint → UInt256 → Bool

structure NodeState where
  mapBlockIndex : Std.ExtTreeMap UInt256 CBlockIndex
  nBlockSequenceId : UInt32
  /-- how many entries were made -/
  nAllocated : ℕ
  chain : ChainState
  mapOrphanBlocks : Std.ExtTreeMap UInt256 COrphanBlock
  /-- a multimap : sorted by key, equal keys in the order they came -/
  mapOrphanBlocksByPrev : List (UInt256 × COrphanBlock)

variable (H : Bytes → UInt256) (env : NodeEnv)

/-! ## AddToBlockIndex -/

/-- The fields of a new entry for a block. -/
def makeEntry (s : NodeState) (block : CBlock) : BlockIndexEntry :=
  ⟨env.addressOf s.nAllocated, some (block.getHash H), block.nVersion, block.hashMerkleRoot,
    block.nTime, block.nBits, block.nNonce, block.vtx.length, s.nBlockSequenceId⟩

/-- The new entry, on that of the predecessor if it is indexed. -/
def makeBlockIndex (s : NodeState) (block : CBlock) : CBlockIndex :=
  match s.mapBlockIndex[block.hashPrevBlock]? with
  | some pprev => .child pprev (makeEntry H env s block)
  | none => .root (makeEntry H env s block)

/-- The state with the new entry. -/
def insertBlockIndex (s : NodeState) (block : CBlock) : NodeState :=
  let pindexNew := makeBlockIndex H env s block
  { s with
    mapBlockIndex := s.mapBlockIndex.insert (block.getHash H) pindexNew
    nBlockSequenceId := s.nBlockSequenceId + 1
    nAllocated := s.nAllocated + 1
    chain := s.chain.insertBlock pindexNew }

/-- `AddToBlockIndex`. -/
def addToBlockIndex (fuel : ℕ) (io : IOPoint → Bool) (s : NodeState) (block : CBlock) :
    Except Halt (Check × NodeState) :=
  if s.mapBlockIndex.contains (block.getHash H) then .ok (stateInvalid 0 "duplicate", s)
  else
    let s := insertBlockIndex H env s block
    if !io .writeBlockIndex then .ok (.error (.error "Failed to write block index"), s)
    else
      match s.chain.activateBestChain env.blocks fuel with
      | .error h => .error h
      | .ok (false, chain) => .ok (.error .unreported, { s with chain := chain })
      | .ok (true, chain) =>
        if !io .flush then .ok (.error (.error "Failed to sync block index"), { s with chain := chain })
        else .ok (.ok (), { s with chain := chain })

/-! ## AcceptBlock -/

/-- `Checkpoints::GetLastCheckpoint(mapBlockIndex)`. -/
def NodeState.lastCheckpoint (s : NodeState) : Option CBlockIndex :=
  Checkpoints.getLastCheckpoint env.checkpoints fun hash => s.mapBlockIndex[hash]?

/-- The checks of `AcceptBlock`, none for the genesis block. -/
def checkAccept (nAdjustedTime : ℤ) (s : NodeState) (block : CBlock) : Check :=
  if block.getHash H = env.params.hashGenesisBlock then .ok ()
  else
    match s.mapBlockIndex[block.hashPrevBlock]? with
    | none => stateDoS 10 0 "bad-prevblk"
    | some pindexPrev =>
      acceptBlockChecks H env.params env.checkpoints (s.lastCheckpoint env)
        s.chain.chainActive.height nAdjustedTime pindexPrev block

/-- `AcceptBlock`, which ends with a look at the active tip. -/
def acceptBlock (fuel : ℕ) (nAdjustedTime : ℤ) (io : IOPoint → Bool) (fKnown : Bool) (s : NodeState)
    (block : CBlock) : Except Halt (Check × NodeState) :=
  if s.mapBlockIndex.contains (block.getHash H) then .ok (stateInvalid 0 "duplicate", s)
  else
    match checkAccept H env nAdjustedTime s block with
    | .error e => .ok (.error e, s)
    | .ok () =>
      if !io .findBlockPos then .ok (.error (.error "out of disk space"), s)
      else if !fKnown && !io .writeBlockToDisk then .ok (.error (.error "Failed to write block"), s)
      else
        match addToBlockIndex H env fuel io s block with
        | .error h => .error h
        | .ok (.error e, s) => .ok (.error e, s)
        | .ok (.ok (), s) =>
          match s.chain.chainActive.tip with
          | none => .error .abort
          | some _ => .ok (.ok (), s)

/-! ## The orphan pool -/

/-- `multimap::insert`. -/
def insertByPrev (x : UInt256 × COrphanBlock) (l : List (UInt256 × COrphanBlock)) :
    List (UInt256 × COrphanBlock) :=
  l.takeWhile (·.1 ≤ x.1) ++ x :: l.dropWhile (·.1 ≤ x.1)

/-- As long as an orphan has others depending on it, move to one of those. -/
def lastDependent (l : List (UInt256 × COrphanBlock)) :
    ℕ → UInt256 × COrphanBlock → UInt256 × COrphanBlock
  | 0, it => it
  | n + 1, it =>
    match l.find? (·.1 == it.2.hashBlock) with
    | none => it
    | some it2 => lastDependent l n it2

/-- `PruneOrphanBlocks`. -/
def pruneOrphanBlocks (insecureRand : ℕ) (s : NodeState) : NodeState :=
  let l := s.mapOrphanBlocksByPrev
  if l.length ≤ env.nMaxOrphanBlocks then s
  else
    match l[insecureRand % l.length]? with
    | none => s
    | some it =>
      let it := lastDependent l l.length it
      { s with
        mapOrphanBlocks := s.mapOrphanBlocks.erase it.2.hashBlock
        mapOrphanBlocksByPrev := l.erase it }

/-- The orphan made of a block. -/
def orphanOf (block : CBlock) : COrphanBlock :=
  ⟨block.getHash H, block.hashPrevBlock, block.serialize⟩

/-- `map::insert`, which leaves an element there is. -/
def addOrphanBlock (s : NodeState) (block : CBlock) : NodeState :=
  let pblock2 := orphanOf H block
  { s with
    mapOrphanBlocks := s.mapOrphanBlocks.insertIfNew pblock2.hashBlock pblock2
    mapOrphanBlocksByPrev := insertByPrev (pblock2.hashPrev, pblock2) s.mapOrphanBlocksByPrev }

/-- Accept the orphans that waited for one block, and take them out of `mapOrphanBlocks` :
the hashes of those that were accepted. -/
def acceptOrphans (fuel : ℕ) (a : Arrival) :
    List COrphanBlock → NodeState → Except Halt (List UInt256 × NodeState)
  | [], s => .ok ([], s)
  | o :: os, s =>
    match CBlock.unserialize o.vchBlock with
    | .error _ => .error .abort
    | .ok (block, _) =>
      match acceptBlock H env fuel a.nAdjustedTime (a.io · (block.getHash H)) false s block with
      | .error h => .error h
      | .ok (r, s) =>
        match acceptOrphans fuel a os
            { s with mapOrphanBlocks := s.mapOrphanBlocks.erase o.hashBlock } with
        | .error h => .error h
        | .ok (accepted, s) =>
          .ok (match r with | .ok () => o.hashBlock :: accepted | .error _ => accepted, s)

/-- The orphans that wait for a block. -/
def NodeState.orphansOf (s : NodeState) (hashPrev : UInt256) : List COrphanBlock :=
  (s.mapOrphanBlocksByPrev.filter (·.1 == hashPrev)).map (·.2)

/-- `mapOrphanBlocksByPrev.erase(hashPrev)`. -/
def NodeState.eraseByPrev (s : NodeState) (hashPrev : UInt256) : NodeState :=
  { s with mapOrphanBlocksByPrev := s.mapOrphanBlocksByPrev.filter (·.1 != hashPrev) }

/-- The loop over the work queue, from the place in it that comes next. -/
def processQueue (fuel : ℕ) (a : Arrival) :
    ℕ → List UInt256 → NodeState → Except Halt NodeState
  | _, [], s => .ok s
  | 0, _ :: _, _ => .error .outOfFuel
  | n + 1, hashPrev :: vWorkQueue, s =>
    match acceptOrphans H env fuel a (s.orphansOf hashPrev) s with
    | .error h => .error h
    | .ok (accepted, s) => processQueue fuel a n (vWorkQueue ++ accepted) (s.eraseByPrev hashPrev)

/-! ## ProcessBlock -/

/-- Extra checks of a block that is not on the tip, once a checkpoint is indexed. -/
def checkSpam (s : NodeState) (block : CBlock) : Check :=
  match s.lastCheckpoint env with
  | none => .ok ()
  | some pcheckpoint =>
    if block.hashPrevBlock = (s.chain.chainActive.tip.bind (·.entry.phashBlock)).getD 0 then .ok ()
    else do
      let deltaTime := block.getBlockTime - pcheckpoint.entry.nTime.toNat
      stopIf (deltaTime < 0) (stateDoS 100 REJECT_CHECKPOINT "time-too-old")
      stopIf (setCompact block.nBits >
          setCompact (computeMinWork env.params pcheckpoint.entry.nBits deltaTime))
        (stateDoS 100 REJECT_INVALID "bad-diffbits")

/-- The checks of `ProcessBlock`. -/
def checkProcess (nAdjustedTime : ℤ) (s : NodeState) (block : CBlock) : Check := do
  stopIf (s.mapBlockIndex.contains (block.getHash H)) (stateInvalid 0 "duplicate")
  stopIf (s.mapOrphanBlocks.contains (block.getHash H)) (stateInvalid 0 "duplicate")
  checkBlock H env.params nAdjustedTime block true true
  checkSpam env s block

/-- `ProcessBlock` : the result, and the state after it. -/
def processBlock (fuel : ℕ) (a : Arrival) (s : NodeState) : Except Halt (Check × NodeState) :=
  let block := a.block
  match checkProcess H env a.nAdjustedTime s block with
  | .error e => .ok (.error e, s)
  | .ok () =>
    -- a block without its predecessor is shunted off until we get that
    if block.hashPrevBlock ≠ 0 ∧ !s.mapBlockIndex.contains block.hashPrevBlock then
      if a.fFrom then .ok (.ok (), addOrphanBlock H (pruneOrphanBlocks env a.insecureRand s) block)
      else .ok (.ok (), s)
    else
      match acceptBlock H env fuel a.nAdjustedTime (a.io · (block.getHash H)) a.fKnown s block with
      | .error h => .error h
      | .ok (.error e, s) => .ok (.error e, s)
      | .ok (.ok (), s) => (processQueue H env fuel a fuel [block.getHash H] s).map fun s => (.ok (), s)

end Ticoin
