import Ticoin.BlockIndex

/-!
# chainparams.h, checkpoints.h and the rules of work

The parameters of the three networks that validation reads, their checkpoints, and what
they make of the targets of a chain. `GetCompact` writes a number in the compact form that
`SetCompact` reads. `GetNextWorkRequired` gives the target of the next block from the
entries below it, and `CheckProofOfWork` compares a hash with a target.
-/

namespace Ticoin

/-! ## Parameters -/

inductive Network
  | main
  | testNet
  | regTest
  deriving DecidableEq, Repr

structure ChainParams where
  networkID : Network
  hashGenesisBlock : UInt256
  bnProofOfWorkLimit : ℤ
  nSubsidyHalvingInterval : ℕ
  deriving Repr

/-- `Params` of a network. -/
def chainParams : Network → ChainParams
  | .main => {
      networkID := .main
      hashGenesisBlock := 0x000000000019d6689c085ae165831e934ff763ae46a2a6c172b3f1b60a8ce26f
      bnProofOfWorkLimit := 2 ^ 224 - 1
      nSubsidyHalvingInterval := 288000 }
  | .testNet => {
      networkID := .testNet
      hashGenesisBlock := 0x000000000933ea01ad0ee984209779baaec3ced90fa3f408719526f8d77f4943
      bnProofOfWorkLimit := 2 ^ 224 - 1
      nSubsidyHalvingInterval := 288000 }
  | .regTest => {
      networkID := .regTest
      hashGenesisBlock := 0x0f9188f13cb7b2c71f2a335e3a4fc328bf5beb436012afca590b1a11466e2206
      bnProofOfWorkLimit := 2 ^ 255 - 1
      nSubsidyHalvingInterval := 150 }

/-- `Params().MessageStart()` of a network. -/
def messageStart : Network → Codec.Bytes
  | .main => [0xf9, 0xbe, 0xb4, 0xd9]
  | .testNet => [0x0b, 0x11, 0x09, 0x07]
  | .regTest => [0xfa, 0xbf, 0xb5, 0xda]

def ChainParams.testNet (params : ChainParams) : Bool := params.networkID == .testNet

/-! ## Checkpoints -/

/-- `mapCheckpoints` of a network, by height. -/
def mapCheckpoints : Network → List (ℕ × UInt256)
  | .main => [
      (11111, 0x0000000069e244f73d78e8fd29ba2fd2ed618bd6fa2ee92559f542fdb26e7c1d),
      (33333, 0x000000002dd5588a74784eaa7ab0507a18ad16a236e7b1ce69f00d7ddfb5d0a6),
      (74000, 0x0000000000573993a3c9e41ce34471c079dcf5f52a0e824a81e7f953b8661a20),
      (105000, 0x00000000000291ce28027faea320c8d2b054b2e0fe44a773f3eefb151d6bdc97),
      (134444, 0x00000000000005b12ffd4cd315cd34ffd4a594f430ac814c91184a0d42d2b0fe),
      (168000, 0x000000000000099e61ea72015e79632f216fe6cb33d7899acb35b75c8303b763),
      (193000, 0x000000000000059f452a5f7340de6682a977387c17010ff6e6c3bd83ca8b1317),
      (210000, 0x000000000000048b95347e83192f69cf0366076336c639f9b7228e9ba171342e),
      (216116, 0x00000000000001b4f4b433e81ee46494af945cf96014816a4e2370f11b23df4e),
      (225430, 0x00000000000001c108384350f74090433e7fcf79a606b8e797f065b130575932),
      (250000, 0x000000000000003887df1f29024b06fc2200b55f8af8f35453d7be294df2d214),
      (279000, 0x0000000000000001ae8c72a0b0c301f67e3afca10e819efa9041e458e9bd7e40),
      (295000, 0x00000000000000004d9b4ef50f0f9d686fd69db2e03af35a100370c64632a983)]
  | .testNet => [(546, 0x000000002a936ca763904c3c35fce2f3556c559c0214345d31b1bcebf76acb70)]
  | .regTest => [(0, 0x0f9188f13cb7b2c71f2a335e3a4fc328bf5beb436012afca590b1a11466e2206)]

namespace Checkpoints

/-- The checkpoints consulted : none when checkpoints are off. -/
def consulted (fEnabled : Bool) (network : Network) : List (ℕ × UInt256) :=
  if fEnabled then mapCheckpoints network else []

/-- `Checkpoints::CheckBlock`. -/
def checkBlock (checkpoints : List (ℕ × UInt256)) (nHeight : ℕ) (hash : UInt256) : Bool :=
  match checkpoints.find? (·.1 == nHeight) with
  | none => true
  | some i => hash == i.2

/-- `GetLastCheckpoint` : the entry of the last checkpoint that is indexed. -/
def getLastCheckpoint (checkpoints : List (ℕ × UInt256)) (find : UInt256 → Option CBlockIndex) :
    Option CBlockIndex :=
  checkpoints.reverse.findSome? fun i => find i.2

/-- `GetTotalBlocksEstimate`. -/
def getTotalBlocksEstimate (checkpoints : List (ℕ × UInt256)) : ℕ :=
  (checkpoints.getLast?.map (·.1)).getD 0

end Checkpoints

/-! ## Targets -/

/-- `CBigNum::GetCompact`. -/
def getCompact (n : ℤ) : UInt32 :=
  let nSize := (Nat.size n.natAbs + 7) / 8
  let nCompact :=
    if nSize ≤ 3 then n.natAbs <<< (8 * (3 - nSize)) else n.natAbs >>> (8 * (nSize - 3))
  -- the bit 0x00800000 denotes the sign, so that a mantissa with it moves down a byte
  let (nCompact, nSize) :=
    if nCompact &&& 0x00800000 ≠ 0 then (nCompact >>> 8, nSize + 1) else (nCompact, nSize)
  UInt32.ofNat (nCompact ||| nSize <<< 24 ||| if n < 0 then 0x00800000 else 0)

def nTargetTimespan : ℤ := 14 * 24 * 60 * 60
def nTargetSpacing : ℤ := 1 * 60
def nInterval : ℕ := (nTargetTimespan / nTargetSpacing).toNat

/-- The loop of `ComputeMinWork` : while time is left, the target may be four times as large. -/
def easeTarget (bnLimit bnResult nTime : ℤ) : ℤ :=
  if nTime > 0 ∧ bnResult < bnLimit then
    easeTarget bnLimit (bnResult * 4) (nTime - nTargetTimespan * 4)
  else bnResult
termination_by nTime.toNat
decreasing_by
  have : nTargetTimespan = 1209600 := rfl
  omega

/-- `ComputeMinWork`. -/
def computeMinWork (params : ChainParams) (nBase : UInt32) (nTime : ℤ) : UInt32 :=
  let bnLimit := params.bnProofOfWorkLimit
  if params.testNet ∧ nTime > nTargetSpacing * 2 then getCompact bnLimit
  else
    let bnResult := easeTarget bnLimit (setCompact nBase) nTime
    getCompact (if bnResult > bnLimit then bnLimit else bnResult)

/-- The entry so many steps down. -/
def CBlockIndex.goBack : ℕ → CBlockIndex → Option CBlockIndex
  | 0, pindex => some pindex
  | _ + 1, .root _ => none
  | n + 1, .child p _ => p.goBack n

/-- The last entry that is not a special minimum-difficulty block, for the testnet. -/
def CBlockIndex.lastNonSpecial (nProofOfWorkLimit : UInt32) : CBlockIndex → CBlockIndex
  | .root e => .root e
  | .child p e =>
    if (CBlockIndex.child p e).nHeight % nInterval ≠ 0 ∧ e.nBits = nProofOfWorkLimit then
      p.lastNonSpecial nProofOfWorkLimit
    else .child p e

/-- The step of adjustment is limited. -/
def limitTimespan (nActualTimespan : ℤ) : ℤ :=
  let nActualTimespan :=
    if nActualTimespan < nTargetTimespan / 4 then nTargetTimespan / 4 else nActualTimespan
  if nActualTimespan > nTargetTimespan * 4 then nTargetTimespan * 4 else nActualTimespan

/-- The target scaled by the time the last blocks took. -/
def retarget (params : ChainParams) (nBits : UInt32) (nActualTimespan : ℤ) : UInt32 :=
  let bnNew := (setCompact nBits * limitTimespan nActualTimespan).tdiv nTargetTimespan
  getCompact (if bnNew > params.bnProofOfWorkLimit then params.bnProofOfWorkLimit else bnNew)

/-- `GetNextWorkRequired` for a block with a predecessor; `none` when an assertion fails. -/
def getNextWorkRequired (params : ChainParams) (pindexLast : CBlockIndex) (block : CBlockHeader) :
    Option UInt32 :=
  let nProofOfWorkLimit := getCompact params.bnProofOfWorkLimit
  if (pindexLast.nHeight + 1) % nInterval ≠ 0 then
    if params.testNet then
      if block.getBlockTime > pindexLast.getBlockTime + nTargetSpacing * 2 then
        some nProofOfWorkLimit
      else some (pindexLast.lastNonSpecial nProofOfWorkLimit).entry.nBits
    else some pindexLast.entry.nBits
  else
    (pindexLast.goBack (nInterval - 1)).map fun pindexFirst =>
      retarget params pindexLast.entry.nBits (pindexLast.getBlockTime - pindexFirst.getBlockTime)

/-- `CheckProofOfWork`. -/
def checkProofOfWork (params : ChainParams) (hash : UInt256) (nBits : UInt32) : Bool :=
  let bnTarget := setCompact nBits
  if bnTarget ≤ 0 ∨ bnTarget > params.bnProofOfWorkLimit then false
  else if hash > getuint256 bnTarget then false
  else true

/-! ## Versions and times of a chain -/

/-- The loop of `IsSuperMajority` : with the entries found so far, look at `nToCheck` more. -/
def CBlockIndex.countVersions (minVersion : Int32) (nRequired : ℕ) :
    ℕ → ℕ → CBlockIndex → ℕ
  | 0, nFound, _ => nFound
  | nToCheck + 1, nFound, pstart =>
    if nFound < nRequired then
      let nFound := if pstart.entry.nVersion ≥ minVersion then nFound + 1 else nFound
      match pstart with
      | .root _ => nFound
      | .child p _ => p.countVersions minVersion nRequired nToCheck nFound
    else nFound

/-- `IsSuperMajority`. -/
def CBlockIndex.isSuperMajority (minVersion : Int32) (pstart : CBlockIndex)
    (nRequired nToCheck : ℕ) : Bool :=
  pstart.countVersions minVersion nRequired nToCheck 0 ≥ nRequired

def nMedianTimeSpan : ℕ := 11

/-- The times of an entry and those below it, at most so many. -/
def CBlockIndex.lastTimes : ℕ → CBlockIndex → List ℤ
  | 0, _ => []
  | _ + 1, .root e => [(CBlockIndex.root e).getBlockTime]
  | n + 1, .child p e => (CBlockIndex.child p e).getBlockTime :: p.lastTimes n

/-- `GetMedianTimePast`. -/
def CBlockIndex.getMedianTimePast (pindex : CBlockIndex) : ℤ :=
  let pmedian := (pindex.lastTimes nMedianTimeSpan).mergeSort (· ≤ ·)
  pmedian.getD (pmedian.length / 2) 0

end Ticoin
