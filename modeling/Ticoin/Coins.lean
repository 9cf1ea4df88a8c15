import Ticoin.Script

/-!
# coins.h : the unspent outputs of a transaction

A `CCoins` keeps the outputs of a transaction that are not spent, with its height, version
and coinbase flag. Spent outputs are nulled, and null outputs at the end are dropped by
`Cleanup`. `Spend` nulls one output and returns its undo information, which carries the
metadata only when no output is left.

Positions and heights are integers of the source's range; an output is looked up by its
position (`isAvailable`).
-/

namespace Ticoin

open Codec

/-- Undo information for a spent input : the output, and the metadata of the transaction if
this was its last one. -/
structure CTxInUndo where
  txout : CTxOut
  fCoinBase : Bool
  nHeight : ℤ
  nVersion : Int32
  deriving DecidableEq, Repr

/-- `CTxInUndo(txout)` with its default metadata. -/
def CTxInUndo.ofTxOut (txout : CTxOut) : CTxInUndo := ⟨txout, false, 0, 0⟩

structure CCoins where
  fCoinBase : Bool
  vout : List CTxOut
  nHeight : ℤ
  nVersion : Int32
  deriving DecidableEq, Repr

namespace CCoins

/-- `CCoins()`. -/
def empty : CCoins := ⟨false, [], 0, 0⟩

/-- Remove spent outputs at the end of `vout`. -/
def cleanup (coins : CCoins) : CCoins :=
  { coins with vout := coins.vout.rdropWhile CTxOut.isNull }

def clearUnspendable (coins : CCoins) : CCoins :=
  cleanup { coins with
    vout := coins.vout.map fun txout =>
      if isUnspendable txout.scriptPubKey then CTxOut.null else txout }

/-- The coins of a transaction at a height. -/
def ofTx (tx : CTransaction) (nHeight : ℤ) : CCoins :=
  clearUnspendable ⟨tx.isCoinBase, tx.vout, nHeight, tx.nVersion⟩

/-- Mark an output spent, and construct undo information. -/
def spend (coins : CCoins) (n : ℕ) : Option (CCoins × CTxInUndo) :=
  match coins.vout[n]? with
  | none => none
  | some txout =>
    if txout.isNull then none
    else
      let left := cleanup { coins with vout := coins.vout.set n CTxOut.null }
      some (left, if left.vout.length = 0 then
        ⟨txout, coins.fCoinBase, coins.nHeight, coins.nVersion⟩ else CTxInUndo.ofTxOut txout)

/-- Whether a particular output is still available. -/
def isAvailable (coins : CCoins) (nPos : ℕ) : Bool :=
  match coins.vout[nPos]? with
  | none => false
  | some txout => !txout.isNull

/-- Whether all outputs are spent. -/
def isPruned (coins : CCoins) : Bool := coins.vout.all CTxOut.isNull

/-- `operator==` : empty coins are always equal. -/
def eqv (a b : CCoins) : Bool := (a.isPruned && b.isPruned) || a == b

end CCoins

end Ticoin
