import Ticoin.BlockIndex

/-!
# FindMostWorkChain and ActivateBestChain : following the best chain

The candidates are `setBlockIndexValid`. `FindMostWorkChain` takes the greatest of them and
walks down to the active chain; where it meets a failed block it marks the part of the walk
above as descending from a failed one and tries the next candidate. `ActivateBestChain`
disconnects and connects blocks towards the chain found, and starts over when a block is
rejected.

What `ConnectBlock` and `DisconnectBlock` make of a block is given by an environment, by
the number of the attempt : connecting may succeed, be rejected as invalid, possibly for a
corrupted block, or fail for a system error. The coins, the memory pool and the wallet they
change are not read here.

Loops whose end is not plain take fuel. A call ends without fuel (`outOfFuel`), fails an
assertion or dereferences a null pointer (`abort`), or returns.
-/

namespace Ticoin

/-- The failure bits of `nStatus`. -/
structure BlockStatus where
  failedValid : Bool
  failedChild : Bool
  deriving DecidableEq, Repr

/-- `nStatus & BLOCK_FAILED_MASK`. -/
def BlockStatus.failed (st : BlockStatus) : Bool := st.failedValid || st.failedChild

/-- What becomes of an attempt to connect a block : `ConnectTip` succeeds, the validation
state is invalid, possibly for a corrupted block, or a system error occurred. -/
inductive Verdict
  | ok
  | invalid (corruptionPossible : Bool)
  | error
  deriving DecidableEq, Repr

/-- How the attempts to connect and disconnect blocks come out, by their number. -/
structure BlockEnv where
  connectBlock : ℕ → CBlockIndex → Verdict
  disconnectBlock : ℕ → CBlockIndex → Bool

/-- How a call ends other than by returning. -/
inductive Halt
  | outOfFuel
  | abort
  deriving DecidableEq, Repr

/-- The chain state of `main.cpp`. -/
structure ChainState where
  nStatus : CBlockIndex → BlockStatus
  setBlockIndexValid : List CBlockIndex
  pindexBestInvalid : Option CBlockIndex
  chainActive : CChain
  chainMostWork : CChain
  /-- how many blocks were tried so far -/
  nAttempts : ℕ

namespace ChainState

/-- Before the first block. -/
def init : ChainState := ⟨fun _ => ⟨false, false⟩, [], none, ⟨[]⟩, ⟨[]⟩, 0⟩

def failed (s : ChainState) (pindex : CBlockIndex) : Bool := (s.nStatus pindex).failed

/-- Count an attempt to connect or disconnect a block. -/
def attempted (s : ChainState) : ChainState := { s with nAttempts := s.nAttempts + 1 }

/-- `chainMostWork.SetTip`. -/
def setMostWork (s : ChainState) (pindex : Option CBlockIndex) : ChainState :=
  { s with chainMostWork := (s.chainMostWork.setTip pindex).1 }

/-- `chainActive.SetTip`. -/
def setActive (s : ChainState) (pindex : Option CBlockIndex) : ChainState :=
  { s with chainActive := (s.chainActive.setTip pindex).1 }

/-! ## The set of candidates -/

/-- Neither is less : the same element to the set. -/
def equivalent (pa pb : CBlockIndex) : Bool := !workLess pa pb && !workLess pb pa

/-- `setBlockIndexValid.insert`. -/
def insertValid (s : ChainState) (pindex : CBlockIndex) : ChainState :=
  if s.setBlockIndexValid.any (equivalent pindex) then s
  else { s with setBlockIndexValid := pindex :: s.setBlockIndexValid }

/-- `setBlockIndexValid.erase`. -/
def eraseValid (s : ChainState) (pindex : CBlockIndex) : ChainState :=
  { s with setBlockIndexValid := s.setBlockIndexValid.filter fun x => !equivalent pindex x }

/-- Give a block the status of a failed one, and erase it from the candidates. -/
def setFailed (s : ChainState) (pindex : CBlockIndex) (st : BlockStatus) : ChainState :=
  eraseValid { s with nStatus := Function.update s.nStatus pindex st } pindex

/-- `*setBlockIndexValid.rbegin()`. -/
def greatest : List CBlockIndex → Option CBlockIndex
  | [] => none
  | b :: l =>
    match greatest l with
    | none => some b
    | some c => if workLess c b then some b else some c

/-- The part of `AddToBlockIndex` that makes a new entry a candidate. -/
def insertBlock (s : ChainState) (pindexNew : CBlockIndex) : ChainState :=
  insertValid { s with nStatus := Function.update s.nStatus pindexNew ⟨false, false⟩ } pindexNew

/-! ## FindMostWorkChain -/

/-- While the tip of the most-work chain is failed, do not consider it : the loop from the
tip given. -/
def popFailed : CBlockIndex → ChainState → ChainState
  | .root e, s =>
    if s.failed (.root e) then (s.eraseValid (.root e)).setMostWork none else s
  | .child p e, s =>
    if s.failed (.child p e) then
      popFailed p ((s.eraseValid (.child p e)).setMostWork (some p))
    else s

/-- The first failed block on the way from a candidate down to the active chain. -/
def firstFailed (s : ChainState) : CBlockIndex → Option CBlockIndex
  | .root e =>
    if s.chainActive.contains (.root e) then none
    else if s.failed (.root e) then some (.root e) else none
  | .child p e =>
    if s.chainActive.contains (.child p e) then none
    else if s.failed (.child p e) then some (.child p e) else firstFailed s p

/-- `nStatus |= BLOCK_FAILED_CHILD`, and not a candidate any more. -/
def markChild (s : ChainState) (pindexFailed : CBlockIndex) : ChainState :=
  s.setFailed pindexFailed { s.nStatus pindexFailed with failedChild := true }

/-- Mark the candidate and its ancestors down to, but without, the failed block. -/
def markFailed (pindexTest : CBlockIndex) : CBlockIndex → ChainState → ChainState
  | .root e, s => if .root e = pindexTest then s else s.markChild (.root e)
  | .child p e, s =>
    if .child p e = pindexTest then s else markFailed pindexTest p (s.markChild (.child p e))

/-- Remember an invalid chain of more work than any before. -/
def noteBestInvalid (s : ChainState) (pindexNew : CBlockIndex) : ChainState :=
  match s.pindexBestInvalid with
  | none => { s with pindexBestInvalid := some pindexNew }
  | some b =>
    if pindexNew.nChainWork > b.nChainWork then { s with pindexBestInvalid := some pindexNew }
    else s

/-- The loop for the best candidate without a failed block below it, `none` when no
candidate is left. -/
def selectCandidate : ℕ → ChainState → Except Halt (Option CBlockIndex × ChainState)
  | 0, _ => .error .outOfFuel
  | fuel + 1, s =>
    match greatest s.setBlockIndexValid with
    | none => .ok (none, s)
    | some pindexNew =>
      match s.firstFailed pindexNew with
      | none => .ok (some pindexNew, s)
      | some pindexTest =>
        selectCandidate fuel (markFailed pindexTest pindexNew (s.noteBestInvalid pindexNew))

/-- The first loop of `FindMostWorkChain`. -/
def dropFailedTip (s : ChainState) : ChainState :=
  match s.chainMostWork.tip with
  | none => s
  | some t => popFailed t s

/-- The candidate becomes the most-work chain if it is an improvement. -/
def adoptCandidate (s : ChainState) (pindexNew : CBlockIndex) : ChainState :=
  match s.chainMostWork.tip with
  | none => s.setMostWork (some pindexNew)
  | some t => if workLess t pindexNew then s.setMostWork (some pindexNew) else s

def findMostWorkChain (fuel : ℕ) (s : ChainState) : Except Halt ChainState :=
  match selectCandidate fuel s.dropFailedTip with
  | .error h => .error h
  | .ok (none, s) => .ok s
  | .ok (some pindexNew, s) => .ok (s.adoptCandidate pindexNew)

/-! ## Connecting and disconnecting -/

/-- `InvalidChainFound`, which reads the active tip for its log line. -/
def invalidChainFound (s : ChainState) (pindexNew : CBlockIndex) : Except Halt ChainState :=
  match s.chainActive.tip with
  | none => .error .abort
  | some _ => .ok (s.noteBestInvalid pindexNew)

/-- `nStatus |= BLOCK_FAILED_VALID`, and not a candidate any more. -/
def markInvalid (s : ChainState) (pindex : CBlockIndex) : ChainState :=
  s.setFailed pindex { s.nStatus pindex with failedValid := true }

/-- `InvalidBlockFound` : the block is marked unless it may only be corrupted. -/
def invalidBlockFound (s : ChainState) (pindex : CBlockIndex) (corruptionPossible : Bool) :
    Except Halt ChainState :=
  if corruptionPossible then .ok s else (s.markInvalid pindex).invalidChainFound pindex

/-- `ConnectTip` : the verdict on the block, and the chain state after it. -/
def connectTip (env : BlockEnv) (s : ChainState) (pindexNew : CBlockIndex) :
    Except Halt (Verdict × ChainState) :=
  if pindexNew.pprev ≠ s.chainActive.tip then .error .abort
  else
    match env.connectBlock s.nAttempts pindexNew with
    | .ok => .ok (.ok, s.attempted.setActive (some pindexNew))
    | .invalid corruptionPossible =>
      (s.attempted.invalidBlockFound pindexNew corruptionPossible).map fun s =>
        (.invalid corruptionPossible, s)
    | .error => .ok (.error, s.attempted)

/-- `DisconnectTip`; `UpdateTip` reads the new tip, so that it must not be null. -/
def disconnectTip (env : BlockEnv) (s : ChainState) (pindexDelete : CBlockIndex) :
    Except Halt (Bool × ChainState) :=
  if env.disconnectBlock s.nAttempts pindexDelete then
    match pindexDelete.pprev with
    | none => .error .abort
    | some p => .ok (true, s.attempted.setActive (some p))
  else .ok (false, s.attempted)

/-- Disconnect active blocks which are no longer in the best chain, until a block is or
disconnecting fails. -/
def disconnectLoop (env : BlockEnv) : ℕ → ChainState → Except Halt (Bool × ChainState)
  | 0, _ => .error .outOfFuel
  | fuel + 1, s =>
    match s.chainActive.tip with
    | none => .ok (true, s)
    | some t =>
      if s.chainMostWork.contains t then .ok (true, s)
      else
        match s.disconnectTip env t with
        | .error h => .error h
        | .ok (false, s) => .ok (false, s)
        | .ok (true, s) => disconnectLoop env fuel s

/-- How the loop that connects blocks ends. -/
inductive Connected
  | complete
  | retry
  | systemError
  deriving DecidableEq, Repr

/-- Connect new blocks, until the most-work chain is active or a block is not connected. -/
def connectLoop (env : BlockEnv) : ℕ → ChainState → Except Halt (Connected × ChainState)
  | 0, _ => .error .outOfFuel
  | fuel + 1, s =>
    match s.chainMostWork.tip with
    | none => .error .abort
    | some w =>
      if s.chainActive.contains w then .ok (.complete, s)
      else
        match s.chainMostWork.at? s.chainActive.vChain.length with
        | none => .error .abort
        | some pindexConnect =>
          match s.connectTip env pindexConnect with
          | .error h => .error h
          | .ok (.ok, s) => connectLoop env fuel s
          | .ok (.error, s) => .ok (.systemError, s)
          | .ok (.invalid corruptionPossible, s) =>
            if corruptionPossible then .ok (.retry, s)
            else (s.invalidChainFound w).map fun s => (.retry, s)

/-- A turn of the loop of `ActivateBestChain` : what the call returns, if it ends in this
turn, and the chain state. -/
def activateTurn (env : BlockEnv) (fuel : ℕ) (s : ChainState) :
    Except Halt (Option Bool × ChainState) :=
  match s.findMostWorkChain fuel with
  | .error h => .error h
  | .ok s =>
    -- check whether we have something to do
    if s.chainMostWork.tip = none then .ok (some true, s)
    else
      match s.disconnectLoop env fuel with
      | .error h => .error h
      | .ok (false, s) => .ok (some false, s)
      | .ok (true, s) =>
        match s.connectLoop env fuel with
        | .error h => .error h
        | .ok (.complete, s) => .ok (some true, s)
        | .ok (.systemError, s) => .ok (some false, s)
        | .ok (.retry, s) => .ok (none, s)

/-- `ActivateBestChain` : what it returns, and the chain state after it. -/
def activateBestChain (env : BlockEnv) : ℕ → ChainState → Except Halt (Bool × ChainState)
  | 0, _ => .error .outOfFuel
  | fuel + 1, s =>
    match s.activateTurn env fuel with
    | .error h => .error h
    | .ok (some r, s) => .ok (r, s)
    | .ok (none, s) => activateBestChain env fuel s

end ChainState

end Ticoin
