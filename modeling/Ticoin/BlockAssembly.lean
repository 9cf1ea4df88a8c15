import Ticoin.ConnectBlock
import Ticoin.NextWork
import Ticoin.TxMemPool

/-!
# miner.cpp : assembling a block

`CreateNewBlock` takes transactions from the pool into a block. A transaction that spends outputs
of others in the pool waits for them (`COrphan`). The rest are in a heap, by priority or by fee, and
are taken one after the other into a view of coins, unless a limit is reached or they cannot be
connected. Taking one releases those that waited for it only.

What is selected can be connected in this order, and so can the block
(`Miner.selectTransactions_spec`, `Miner.createNewBlock_connects`). Priorities and fees are
floating-point numbers, of which nothing is assumed : any transaction may be at the front of the
heap.
-/

namespace Ticoin

open Codec

/-! ## The candidates -/

/-- An entry of the heap. -/
structure TxPriority (F : Type) where
  dPriority : F
  dFeePerKb : F
  ptx : CTransaction

/-- A transaction that waits for others. -/
structure COrphan (F : Type) where
  ptx : CTransaction
  setDependsOn : Finset UInt256
  dPriority : F
  dFeePerKb : F

/-- Floating-point numbers, and where the heap has its front : any place, which may depend on what
was taken before. -/
structure Floats (F : Type) where
  zero : F
  /-- `dPriority + (double)nValueIn * nConf` -/
  addAge (dPriority : F) (nValueIn nConf : ℤ) : F
  computePriority (tx : CTransaction) (dPriority : F) (nTxSize : ℕ) : F
  /-- `double(nFee) / (double(nTxSize) / 1000.0)` -/
  perKb (nFee : ℤ) (nTxSize : ℕ) : F
  belowMinRelayTxFee (dFeePerKb : F) : Bool
  allowFree (dPriority : F) : Bool
  front (nTaken : ℕ) (byFee : Bool) (vecPriority : List (TxPriority F)) : ℕ

/-- What `CreateNewBlock` reads : the tip and the view of its coins, the memory pool, and the
arguments. -/
structure Miner (F : Type) where
  env : ConnectEnv
  floats : Floats F
  pindexPrev : CBlockIndex
  pcoinsTip : FlatView
  mempool : CTxMemPool
  blockmaxsize : UInt32
  blockprioritysize : UInt32
  blockminsize : UInt32

/-- Whether a check passes, unless it throws. -/
def passed {α : Type} : Except Stop α → Except Stop Bool
  | .ok _ => .ok true
  | .error (.throw what) => .error (.throw what)
  | .error .undefined => .error .undefined
  | .error _ => .ok false

namespace Miner

variable {F : Type} (H : Bytes → UInt256) (m : Miner F)

/-- Largest block you're willing to create, between 1K and 1K less than the maximum. -/
def nBlockMaxSize : ℕ := max 1000 (min (MAX_BLOCK_SIZE - 1000) m.blockmaxsize.toNat)

def nBlockPrioritySize : ℕ := min m.nBlockMaxSize m.blockprioritysize.toNat

def nBlockMinSize : ℕ := min m.nBlockMaxSize m.blockminsize.toNat

/-- The height of the new block. -/
def nHeight : ℕ := m.pindexPrev.nHeight + 1

/-- The loop over the pool. -/
structure Collecting (F : Type) where
  vOrphan : List (COrphan F)
  /-- places in `vOrphan`, by the hashes waited for -/
  mapDependers : UInt256 → List ℕ
  vecPriority : List (TxPriority F)

/-- The loop over the inputs of a transaction. -/
structure Inputs (F : Type) where
  porphan : Option ℕ
  dPriority : F
  nTotalIn : ℤ
  fMissingInputs : Bool

/-- A transaction has to wait for one with a hash. -/
def waitFor (tx : CTransaction) (hash : UInt256) (c : Collecting F) (i : Inputs F) :
    Collecting F × Inputs F :=
  let vOrphan : List (COrphan F) := match i.porphan with
    | some _ => c.vOrphan
    | none => c.vOrphan ++ [⟨tx, ∅, m.floats.zero, m.floats.zero⟩]
  let porphan := i.porphan.getD c.vOrphan.length
  ({ c with
    vOrphan := vOrphan.modify porphan fun o =>
      { o with setDependsOn := insert hash o.setDependsOn }
    mapDependers := Function.update c.mapDependers hash (c.mapDependers hash ++ [porphan]) },
    { i with porphan := some porphan })

/-- The inputs of a transaction of the pool. -/
def collectInputs (tx : CTransaction) : List CTxIn → Collecting F → Inputs F →
    Except Stop (Collecting F × Inputs F)
  | [], c, i => .ok (c, i)
  | txin :: vin, c, i =>
    match m.pcoinsTip.coins txin.prevout.hash with
    | none =>
      match m.mempool.mapTx[txin.prevout.hash]? with
      | none =>
        -- mempool transaction missing input
        .ok ({ c with vOrphan := if i.porphan.isSome then c.vOrphan.dropLast else c.vOrphan },
          { i with fMissingInputs := true })
      | some entry =>
        -- has to wait for dependencies
        match entry.tx.vout[txin.prevout.n.toNat]? with
        | none => .error .undefined
        | some txout =>
          let (c, i) := m.waitFor tx txin.prevout.hash c i
          collectInputs tx vin c { i with nTotalIn := i.nTotalIn + txout.nValue.toInt }
    | some coins =>
      match coins.vout[txin.prevout.n.toNat]? with
      | none => .error .undefined
      | some txout =>
        let nConf := m.pindexPrev.nHeight - coins.nHeight + 1
        collectInputs tx vin c { i with
          nTotalIn := i.nTotalIn + txout.nValue.toInt
          dPriority := m.floats.addAge i.dPriority txout.nValue.toInt nConf }

/-- One transaction of the pool. -/
def collectTx (c : Collecting F) (tx : CTransaction) : Except Stop (Collecting F) :=
  if tx.isCoinBase ∨ !isFinalTx m.pindexPrev.nHeight m.env.nAdjustedTime tx m.nHeight 0 then .ok c
  else do
    let (c, i) ← m.collectInputs tx tx.vin c ⟨none, m.floats.zero, 0, false⟩
    if i.fMissingInputs then return c
    let nTxSize := tx.serialize.length
    let dPriority := m.floats.computePriority tx i.dPriority nTxSize
    let nValueOut ← tx.valueOut
    let dFeePerKb := m.floats.perKb (i.nTotalIn - nValueOut) nTxSize
    match i.porphan with
    | some porphan => return { c with
        vOrphan := c.vOrphan.modify porphan fun o =>
          { o with dPriority := dPriority, dFeePerKb := dFeePerKb } }
    | none => return { c with vecPriority := c.vecPriority ++ [⟨dPriority, dFeePerKb, tx⟩] }

/-- The transactions of the pool, by hash. -/
def poolTxs : List CTransaction := m.mempool.mapTx.toList.map fun item => item.2.tx

def collect : Except Stop (Collecting F) := m.poolTxs.foldlM m.collectTx ⟨[], fun _ => [], []⟩

/-! ## The selection -/

/-- Collect transactions into block. -/
structure Selecting (F : Type) where
  view : FlatView
  vOrphan : List (COrphan F)
  vecPriority : List (TxPriority F)
  nTaken : ℕ
  nBlockSize : ℕ
  nBlockSigOps : ℕ
  nFees : ℤ
  fSortedByFee : Bool
  /-- the transactions after the coinbase, with their fees and signature operations -/
  vtx : List CTransaction
  vTxFees : List ℤ
  vTxSigOps : List ℕ

/-- Take highest priority transaction off the priority queue. -/
def take (s : Selecting F) : Option (TxPriority F × Selecting F) :=
  let i := m.floats.front s.nTaken s.fSortedByFee s.vecPriority % s.vecPriority.length
  s.vecPriority[i]?.map fun item =>
    (item, { s with vecPriority := s.vecPriority.eraseIdx i, nTaken := s.nTaken + 1 })

/-- Whether a limit keeps a transaction out. -/
def skips (s : Selecting F) (item : TxPriority F) : Bool :=
  let nTxSize := item.ptx.serialize.length
  -- size limits
  decide (s.nBlockSize + nTxSize ≥ m.nBlockMaxSize) ||
  -- legacy limits on sigOps
  decide (s.nBlockSigOps + getLegacySigOpCount item.ptx ≥ MAX_BLOCK_SIGOPS) ||
  -- skip free transactions if we're past the minimum block size
  (s.fSortedByFee && m.floats.belowMinRelayTxFee item.dFeePerKb &&
    decide (s.nBlockSize + nTxSize ≥ m.nBlockMinSize))

/-- Prioritize by fee once past the priority size or we run out of high-priority transactions. -/
def switch (s : Selecting F) (item : TxPriority F) : Selecting F :=
  if !s.fSortedByFee ∧ (s.nBlockSize + item.ptx.serialize.length ≥ m.nBlockPrioritySize ∨
      !m.floats.allowFree item.dPriority) then { s with fSortedByFee := true }
  else s

/-- A transaction that waits for one with a hash, and may be added to the queue. -/
def release (hash : UInt256) (s : Selecting F) (porphan : ℕ) : Except Stop (Selecting F) :=
  match s.vOrphan[porphan]? with
  | none => .error .undefined
  | some o =>
    if o.setDependsOn = ∅ then .ok s
    else
      let setDependsOn := o.setDependsOn.erase hash
      .ok { s with
        vOrphan := s.vOrphan.set porphan { o with setDependsOn := setDependsOn }
        vecPriority := if setDependsOn = ∅ then
          s.vecPriority ++ [⟨o.dPriority, o.dFeePerKb, o.ptx⟩] else s.vecPriority }

/-- A transaction that may be added is added if it can be connected. -/
def add (mapDependers : UInt256 → List ℕ) (s : Selecting F) (tx : CTransaction) :
    Except Stop (Selecting F) :=
  if !s.view.haveInputs tx then .ok s
  else do
    let nValueIn ← s.view.getValueIn tx
    let nValueOut ← tx.valueOut
    let nP2SHSigOps ← s.view.getP2SHSigOpCount tx
    let nTxSigOps := getLegacySigOpCount tx + nP2SHSigOps
    if s.nBlockSigOps + nTxSigOps ≥ MAX_BLOCK_SIGOPS then return s
    let fChecked ← passed (checkInputs m.env s.view tx true SCRIPT_VERIFY_P2SH false)
    if !fChecked then return s
    let hash := tx.getHash H
    let (view, _) ← s.view.updateCoins tx m.nHeight hash
    let s := { s with
      view := view
      vtx := s.vtx ++ [tx]
      vTxFees := s.vTxFees ++ [nValueIn - nValueOut]
      vTxSigOps := s.vTxSigOps ++ [nTxSigOps]
      nBlockSize := s.nBlockSize + tx.serialize.length
      nBlockSigOps := s.nBlockSigOps + nTxSigOps
      nFees := s.nFees + (nValueIn - nValueOut) }
    (mapDependers hash).foldlM (release hash) s

/-- The loop over the queue, so many turns at most. -/
def select (mapDependers : UInt256 → List ℕ) : ℕ → Selecting F → Except Stop (Selecting F)
  | 0, s => .ok s
  | fuel + 1, s =>
    match m.take s with
    | none => .ok s
    | some (item, s) =>
      if m.skips s item then select mapDependers fuel s
      else do
        let s ← m.add H mapDependers (m.switch s item) item.ptx
        select mapDependers fuel s

def startSelecting (c : Collecting F) : Selecting F where
  view := m.pcoinsTip
  vOrphan := c.vOrphan
  vecPriority := c.vecPriority
  nTaken := 0
  nBlockSize := 1000
  nBlockSigOps := 100
  nFees := 0
  fSortedByFee := m.nBlockPrioritySize ≤ 0
  vtx := []
  vTxFees := []
  vTxSigOps := []

/-- The transactions for the block. Every transaction is taken off the queue once at most. -/
def selectTransactions : Except Stop (Selecting F) := do
  let c ← m.collect
  m.select H c.mapDependers (c.vecPriority.length + c.vOrphan.length) (m.startSelecting c)

/-! ## The block -/

/-- The coinbase, which pays to a script. -/
def coinbase (scriptPubKeyIn : Bytes) (nFees : ℤ) : CTransaction where
  nVersion := 1
  vin := [⟨COutPoint.null, [OP_0, OP_0], 0xffffffff⟩]
  vout := [⟨.ofInt (getBlockValue m.env.params m.nHeight nFees), scriptPubKeyIn⟩]
  nLockTime := 0

/-- The header, which has no Merkle root yet. -/
def header (hashPrevBlock : UInt256) : CBlockHeader where
  nVersion := 3
  hashPrevBlock := hashPrevBlock
  hashMerkleRoot := 0
  nTime := .ofInt (max (m.pindexPrev.getMedianTimePast + 1) m.env.nAdjustedTime)
  nBits := 0
  nNonce := 0

/-- The entry of the new block, which has no hash. -/
def indexDummy (block : CBlock) : CBlockIndex := .child m.pindexPrev {
  address := 0
  phashBlock := none
  nVersion := block.nVersion
  hashMerkleRoot := block.hashMerkleRoot
  nTime := block.nTime
  nBits := block.nBits
  nNonce := block.nNonce
  nTx := 0
  nSequenceId := 0 }

/-- The block of some transactions. -/
def newBlock (scriptPubKeyIn : Bytes) (vtx : List CTransaction) (nFees : ℤ) : Except Stop CBlock :=
  match m.pindexPrev.entry.phashBlock with
  | none => .error .undefined
  | some hashPrevBlock =>
    let header := m.header hashPrevBlock
    match getNextWorkRequired m.env.params m.pindexPrev header with
    | none => .error .undefined
    | some nBits => .ok { header with
        nBits := nBits
        vtx := m.coinbase scriptPubKeyIn nFees :: vtx }

end Miner

structure CBlockTemplate where
  block : CBlock
  vTxFees : List ℤ
  vTxSigOps : List ℕ

/-- `CreateNewBlock`. -/
def Miner.createNewBlock {F : Type} (H : Bytes → UInt256) (m : Miner F) (scriptPubKeyIn : Bytes) :
    Except Stop CBlockTemplate := do
  let s ← m.selectTransactions H
  let block ← m.newBlock scriptPubKeyIn s.vtx s.nFees
  let fConnected ← passed (connectBlock H m.env block (m.indexDummy block) m.pcoinsTip true)
  if !fConnected then throw (.throw "CreateNewBlock() : ConnectBlock failed")
  return {
    block := block
    vTxFees := -s.nFees :: s.vTxFees
    vTxSigOps := getLegacySigOpCount (m.coinbase scriptPubKeyIn s.nFees) :: s.vTxSigOps }

end Ticoin
