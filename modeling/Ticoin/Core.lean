import Ticoin.Lib.Merkle
import Ticoin.Serialize

/-!
# core.h : transactions and blocks

The data types of the wire format with their serializations, and the hashes taken of
them. `Hash` is the double SHA-256 of a byte string, computed by a library outside the
repository : every definition that hashes takes it as the parameter `H`.

Amounts are the 64-bit values of the format; sums of amounts are taken over the integers
and checked against `MAX_MONEY`, as `CTransaction::GetValueOut` does after each addition.
`CBlock::BuildMerkleTree` grows one vector of hashes level by level (`merkleTree`), and its
last entry is the root of the levels of the transaction hashes (`buildMerkleTree_eq_root`).
-/

namespace Ticoin

open Codec

/-! ## Amounts -/

def COIN : ℤ := 100000000

/-- No amount larger than this is valid. -/
def MAX_MONEY : ℤ := 28800000 * COIN

abbrev MoneyRange (nValue : ℤ) : Prop := 0 ≤ nValue ∧ nValue ≤ MAX_MONEY

/-! ## Limits -/

/-- The maximum allowed size for a serialized block, in bytes. -/
def MAX_BLOCK_SIZE : ℕ := 1000000

/-! ## Transactions -/

/-- A transaction hash and an index into its outputs. -/
structure COutPoint where
  hash : UInt256
  n : UInt32
  deriving DecidableEq, Repr

/-- The outpoint of a coinbase input : hash zero, index `(unsigned int) -1`. -/
def COutPoint.null : COutPoint := ⟨0, 0xffffffff⟩

def COutPoint.isNull (o : COutPoint) : Bool := o.hash == 0 && o.n == 0xffffffff

/-- `operator<` : by hash, then by index. -/
instance : Ord COutPoint := ⟨compareLex (compareOn (·.hash)) (compareOn (·.n))⟩

instance : Std.TransOrd COutPoint :=
  inferInstanceAs (Std.TransCmp (compareLex (compareOn COutPoint.hash) (compareOn COutPoint.n)))

instance : Std.LawfulEqOrd COutPoint where
  eq_of_compare {a b} h := by
    have hlex : compareLex (compareOn COutPoint.hash) (compareOn COutPoint.n) a b = .eq := h
    obtain ⟨hhash, hn⟩ := compareLex_eq_eq.mp hlex
    cases a
    cases b
    cases Std.LawfulEqOrd.eq_of_compare hhash
    cases Std.LawfulEqOrd.eq_of_compare hn
    rfl

structure CTxIn where
  prevout : COutPoint
  scriptSig : Bytes
  nSequence : UInt32
  deriving DecidableEq, Repr

def CTxIn.isFinal (txin : CTxIn) : Bool := txin.nSequence == 0xffffffff

structure CTxOut where
  nValue : Int64
  scriptPubKey : Bytes
  deriving DecidableEq, Repr

/-- `SetNull`. -/
def CTxOut.null : CTxOut := ⟨-1, []⟩

def CTxOut.isNull (txout : CTxOut) : Bool := txout.nValue == -1

@[simp] theorem CTxOut.isNull_null : CTxOut.null.isNull = true := rfl

structure CTransaction where
  nVersion : Int32
  vin : List CTxIn
  vout : List CTxOut
  nLockTime : UInt32
  deriving DecidableEq, Repr

def CTransaction.isCoinBase (tx : CTransaction) : Bool :=
  match tx.vin with
  | [txin] => txin.prevout.isNull
  | _ => false

/-- One step of `GetValueOut` : the output is added, then it and the sum are checked. -/
def addValueOut (nValueOut : ℤ) (txout : CTxOut) : Except String ℤ :=
  if MoneyRange txout.nValue.toInt ∧ MoneyRange (nValueOut + txout.nValue.toInt) then
    .ok (nValueOut + txout.nValue.toInt)
  else .error "CTransaction::GetValueOut() : value out of range"

def CTransaction.getValueOut (tx : CTransaction) : Except String ℤ := tx.vout.foldlM addValueOut 0

/-! ## Blocks -/

structure CBlockHeader where
  nVersion : Int32
  hashPrevBlock : UInt256
  hashMerkleRoot : UInt256
  nTime : UInt32
  nBits : UInt32
  nNonce : UInt32
  deriving DecidableEq, Repr

def CBlockHeader.getBlockTime (block : CBlockHeader) : ℤ := block.nTime.toNat

structure CBlock extends CBlockHeader where
  vtx : List CTransaction
  deriving DecidableEq, Repr

/-! ## Serialization -/

def COutPoint.serialize (o : COutPoint) : Bytes := serializeUInt256 o.hash ++ serializeUInt32 o.n

def CTxIn.serialize (txin : CTxIn) : Bytes :=
  txin.prevout.serialize ++ serializeBytes txin.scriptSig ++ serializeUInt32 txin.nSequence

def CTxOut.serialize (txout : CTxOut) : Bytes :=
  serializeInt64 txout.nValue ++ serializeBytes txout.scriptPubKey

def CTransaction.serialize (tx : CTransaction) : Bytes :=
  serializeInt32 tx.nVersion ++ serializeVector CTxIn.serialize tx.vin ++
    serializeVector CTxOut.serialize tx.vout ++ serializeUInt32 tx.nLockTime

def CBlockHeader.serialize (block : CBlockHeader) : Bytes :=
  serializeInt32 block.nVersion ++ serializeUInt256 block.hashPrevBlock ++
    serializeUInt256 block.hashMerkleRoot ++ serializeUInt32 block.nTime ++
    serializeUInt32 block.nBits ++ serializeUInt32 block.nNonce

def CBlock.serialize (block : CBlock) : Bytes :=
  block.toCBlockHeader.serialize ++ serializeVector CTransaction.serialize block.vtx

/-! ## Hashes -/

variable (H : Bytes → UInt256)

/-- `Hash` of two hashes written one after the other. -/
def hash2 (l r : UInt256) : UInt256 := H (serializeUInt256 l ++ serializeUInt256 r)

def CTransaction.getHash (tx : CTransaction) : UInt256 := H tx.serialize

def CBlockHeader.getHash (block : CBlockHeader) : UInt256 := H block.serialize

/-- The `k`-th pair of the level of `nSize` nodes that starts at `j` : its hash is appended
to the vector, the last node of an odd level paired with itself. -/
def merklePair (j nSize : ℕ) (v : List UInt256) (k : ℕ) : List UInt256 :=
  v ++ [hash2 H (v.getD (j + 2 * k) 0) (v.getD (j + min (2 * k + 1) (nSize - 1)) 0)]

/-- One pass over the level of `nSize` nodes that starts at `j`. -/
def merkleLevel (j nSize : ℕ) (vMerkleTree : List UInt256) : List UInt256 :=
  (List.range ((nSize + 1) / 2)).foldl (merklePair H j nSize) vMerkleTree

/-- The levels above the one of `nSize` nodes that starts at `j`. -/
def merkleTree (j nSize : ℕ) (vMerkleTree : List UInt256) : List UInt256 :=
  if nSize > 1 then
    merkleTree (j + nSize) ((nSize + 1) / 2) (merkleLevel H j nSize vMerkleTree)
  else vMerkleTree
termination_by nSize

/-- `BuildMerkleTree` from the transaction hashes on : the last node of the vector. -/
def buildMerkleTree (vTxid : List UInt256) : UInt256 :=
  (merkleTree H 0 vTxid.length vTxid).getLast?.getD 0

def CBlock.buildMerkleTree (block : CBlock) : UInt256 :=
  Ticoin.buildMerkleTree H (block.vtx.map (CTransaction.getHash H))

/-! ## The Merkle root -/

theorem getD_level (pre lvl rest : List UInt256) {i : ℕ} (hi : i < lvl.length) :
    (pre ++ lvl ++ rest).getD (pre.length + i) 0 = lvl.getD i 0 := by
  rw [List.append_assoc, List.getD_append_right _ _ _ _ (by omega), Nat.add_sub_cancel_left,
    List.getD_append _ _ _ _ hi]

/-- A pair is the next node of the level above. -/
theorem merklePair_take (pre lvl : List UInt256) {k : ℕ} (hk : k < (lvl.length + 1) / 2) :
    merklePair H pre.length lvl.length (pre ++ lvl ++ (Merkle.levelUp (hash2 H) lvl).take k) k =
      pre ++ lvl ++ (Merkle.levelUp (hash2 H) lvl).take (k + 1) := by
  have hleft : 2 * k < lvl.length := by omega
  have hnode := Merkle.getElem?_levelUp (hash2 H) lvl k
  rw [List.getElem?_eq_getElem hleft, Option.map_some] at hnode
  have hright : lvl.getD (min (2 * k + 1) (lvl.length - 1)) 0 =
      (lvl[2 * k + 1]?).getD lvl[2 * k] := by
    rcases Nat.lt_or_ge (2 * k + 1) lvl.length with h | h
    · rw [Nat.min_eq_left (by omega), List.getElem?_eq_getElem h, Option.getD_some,
        List.getD_eq_getElem _ _ h]
    · have hlast : min (2 * k + 1) (lvl.length - 1) = 2 * k := by omega
      rw [hlast, List.getElem?_eq_none h, Option.getD_none, List.getD_eq_getElem _ _ hleft]
  rw [merklePair, getD_level pre lvl _ hleft, getD_level pre lvl _ (by omega), hright,
    List.getD_eq_getElem _ _ hleft, List.take_add_one, hnode, Option.toList_some,
    ← List.append_assoc]

/-- A pass appends the next level. -/
theorem merkleLevel_append (pre lvl : List UInt256) :
    merkleLevel H pre.length lvl.length (pre ++ lvl) =
      pre ++ lvl ++ Merkle.levelUp (hash2 H) lvl := by
  have hpass : ∀ k ≤ (lvl.length + 1) / 2,
      (List.range k).foldl (merklePair H pre.length lvl.length) (pre ++ lvl) =
        pre ++ lvl ++ (Merkle.levelUp (hash2 H) lvl).take k := by
    intro k hk
    induction k with
    | zero => simp
    | succ k ih =>
      rw [List.range_succ, List.foldl_append, ih (by omega), List.foldl_cons, List.foldl_nil,
        merklePair_take H pre lvl (by omega)]
  rw [merkleLevel, hpass _ le_rfl, ← Merkle.length_levelUp (hash2 H), List.take_length]

/-- The vector grown from a level ends with the root of the level. -/
theorem getLast?_merkleTree (pre lvl : List UInt256) (hne : lvl ≠ []) :
    (merkleTree H pre.length lvl.length (pre ++ lvl)).getLast? =
      Merkle.root (hash2 H) lvl := by
  induction hn : lvl.length using Nat.strong_induction_on generalizing pre lvl with
  | _ n ih =>
  subst hn
  unfold merkleTree
  split
  · rename_i hlen
    have hup := Merkle.length_levelUp (hash2 H) lvl
    have hne' : Merkle.levelUp (hash2 H) lvl ≠ [] := by
      rw [← List.length_pos_iff, hup]
      omega
    rw [merkleLevel_append, ← Merkle.root_levelUp (hash2 H) hlen, ← hup, ← List.length_append]
    exact ih _ (by omega) (pre ++ lvl) _ hne' rfl
  · rename_i hlen
    obtain ⟨a, rfl⟩ : ∃ a, lvl = [a] := by
      rw [← List.length_eq_one_iff]
      have := List.length_pos_iff.mpr hne
      omega
    simp

/-- `BuildMerkleTree` computes the root of the levels of the transaction hashes. -/
theorem buildMerkleTree_eq_root {vTxid : List UInt256} (hne : vTxid ≠ []) :
    buildMerkleTree H vTxid = (Merkle.root (hash2 H) vTxid).getD 0 := by
  have h := getLast?_merkleTree H [] vTxid hne
  rw [List.length_nil, List.nil_append] at h
  rw [buildMerkleTree, h]

end Ticoin
