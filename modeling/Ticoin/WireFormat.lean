import Ticoin.Core

/-!
# Reading transactions and blocks back

The readers of the types of `core.h`. Serializing and reading is the identity on a
transaction or a block whose serialization is within `MAX_SIZE`, for then so are all its
vectors (`CTransaction.reads`, `CBlock.reads`).
-/

namespace Ticoin

open Codec

/-! ## Readers -/

def unserializeInt32 : Reader Int32 := do
  let n ← unserializeUInt32
  return n.toInt32

def unserializeInt64 : Reader Int64 := do
  let n ← readLe endOfData 8
  return (UInt64.ofNat n).toInt64

def COutPoint.unserialize : Reader COutPoint := do
  let hash ← unserializeUInt256
  let n ← unserializeUInt32
  return ⟨hash, n⟩

def CTxIn.unserialize : Reader CTxIn := do
  let prevout ← COutPoint.unserialize
  let scriptSig ← unserializeBytes
  let nSequence ← unserializeUInt32
  return ⟨prevout, scriptSig, nSequence⟩

def CTxOut.unserialize : Reader CTxOut := do
  let nValue ← unserializeInt64
  let scriptPubKey ← unserializeBytes
  return ⟨nValue, scriptPubKey⟩

def CTransaction.unserialize : Reader CTransaction := do
  let nVersion ← unserializeInt32
  let vin ← unserializeVector CTxIn.unserialize
  let vout ← unserializeVector CTxOut.unserialize
  let nLockTime ← unserializeUInt32
  return ⟨nVersion, vin, vout, nLockTime⟩

def CBlockHeader.unserialize : Reader CBlockHeader := do
  let nVersion ← unserializeInt32
  let hashPrevBlock ← unserializeUInt256
  let hashMerkleRoot ← unserializeUInt256
  let nTime ← unserializeUInt32
  let nBits ← unserializeUInt32
  let nNonce ← unserializeUInt32
  return ⟨nVersion, hashPrevBlock, hashMerkleRoot, nTime, nBits, nNonce⟩

def CBlock.unserialize : Reader CBlock := do
  let header ← CBlockHeader.unserialize
  let vtx ← unserializeVector CTransaction.unserialize
  return { header with vtx := vtx }

/-! ## Round trips -/

theorem reads_int32 (n : Int32) : Reads unserializeInt32 (serializeInt32 n) n :=
  (reads_uint32 n.toUInt32).map UInt32.toInt32

theorem reads_int64 (n : Int64) : Reads unserializeInt64 (serializeInt64 n) n := by
  have h := (reads_readLe endOfData (k := 8) n.toUInt64.toNat_lt).map
    fun m => (UInt64.ofNat m).toInt64
  rw [UInt64.ofNat_toNat] at h
  exact h

theorem COutPoint.reads (o : COutPoint) : Reads COutPoint.unserialize o.serialize o :=
  (reads_uint256 o.hash).bind ((reads_uint32 o.n).map (COutPoint.mk o.hash))

theorem CTxIn.reads {txin : CTxIn} (h : txin.scriptSig.length ≤ MAX_SIZE) :
    Reads CTxIn.unserialize txin.serialize txin := by
  rw [CTxIn.serialize, List.append_assoc]
  exact txin.prevout.reads.bind ((reads_bytes h).bind ((reads_uint32 txin.nSequence).map _))

theorem CTxOut.reads {txout : CTxOut} (h : txout.scriptPubKey.length ≤ MAX_SIZE) :
    Reads CTxOut.unserialize txout.serialize txout :=
  (reads_int64 txout.nValue).bind ((reads_bytes h).map _)

/-- A serialized vector is no shorter than its elements. -/
theorem length_le_serializeVector {α : Type} (enc : α → Bytes) {v : List α} {a : α} (h : a ∈ v) :
    (enc a).length ≤ (serializeVector enc v).length := by
  rw [serializeVector, List.length_append, List.length_flatMap]
  have hle := List.le_sum_of_mem (List.mem_map_of_mem (f := fun x => (enc x).length) h)
  exact hle.trans (Nat.le_add_left _ _)

/-- A vector of elements that take a byte at least is no longer than its serialization. -/
theorem length_le_length_serializeVector {α : Type} {enc : α → Bytes} {v : List α}
    (h : ∀ a ∈ v, 0 < (enc a).length) : v.length ≤ (serializeVector enc v).length := by
  rw [serializeVector, List.length_append, List.length_flatMap]
  refine Nat.le_add_left_of_le ?_
  induction v with
  | nil => simp
  | cons a v ih =>
    have ha := h a List.mem_cons_self
    have hv := ih fun x hx => h x (List.mem_cons_of_mem a hx)
    simp only [List.map_cons, List.sum_cons, List.length_cons]
    omega

theorem length_le_serializeBytes (v : Bytes) : v.length ≤ (serializeBytes v).length := by
  rw [serializeBytes, List.length_append]
  exact Nat.le_add_left _ _

theorem CTxIn.length_serialize_pos (txin : CTxIn) : 0 < txin.serialize.length := by
  simp only [CTxIn.serialize, List.length_append, serializeUInt32, length_leBytes]
  omega

theorem CTxOut.length_serialize_pos (txout : CTxOut) : 0 < txout.serialize.length := by
  simp only [CTxOut.serialize, List.length_append, serializeInt64, length_leBytes]
  omega

theorem CTransaction.length_serialize_pos (tx : CTransaction) : 0 < tx.serialize.length := by
  simp only [CTransaction.serialize, List.length_append, serializeUInt32, length_leBytes]
  omega

/-- The vectors and the scripts of a transaction are within the limit. -/
structure CTransaction.Sized (tx : CTransaction) : Prop where
  vin : tx.vin.length ≤ MAX_SIZE
  scriptSig : ∀ txin ∈ tx.vin, txin.scriptSig.length ≤ MAX_SIZE
  vout : tx.vout.length ≤ MAX_SIZE
  scriptPubKey : ∀ txout ∈ tx.vout, txout.scriptPubKey.length ≤ MAX_SIZE

/-- A transaction whose vectors are within the limit is read back. -/
theorem CTransaction.Sized.reads {tx : CTransaction} (h : tx.Sized) :
    Reads CTransaction.unserialize tx.serialize tx := by
  rw [CTransaction.serialize, List.append_assoc, List.append_assoc]
  exact (reads_int32 tx.nVersion).bind
    ((reads_vector (fun txin hmem => CTxIn.reads (h.scriptSig txin hmem)) h.vin).bind
      ((reads_vector (fun txout hmem => CTxOut.reads (h.scriptPubKey txout hmem)) h.vout).bind
        ((reads_uint32 tx.nLockTime).map _)))

/-- The vectors are no longer than the serialization. -/
theorem CTransaction.sized {tx : CTransaction} (h : tx.serialize.length ≤ MAX_SIZE) : tx.Sized := by
  simp only [CTransaction.serialize, List.length_append] at h
  have hvin := length_le_length_serializeVector (v := tx.vin) fun txin _ =>
    txin.length_serialize_pos
  have hvout := length_le_length_serializeVector (v := tx.vout) fun txout _ =>
    txout.length_serialize_pos
  refine ⟨by omega, fun txin hmem => ?_, by omega, fun txout hmem => ?_⟩
  · have hle := length_le_serializeVector CTxIn.serialize hmem
    have hscript := length_le_serializeBytes txin.scriptSig
    simp only [CTxIn.serialize, List.length_append] at hle
    omega
  · have hle := length_le_serializeVector CTxOut.serialize hmem
    have hscript := length_le_serializeBytes txout.scriptPubKey
    simp only [CTxOut.serialize, List.length_append] at hle
    omega

/-- A transaction whose serialization is within the limit is read back. -/
theorem CTransaction.reads {tx : CTransaction} (h : tx.serialize.length ≤ MAX_SIZE) :
    Reads CTransaction.unserialize tx.serialize tx :=
  (CTransaction.sized h).reads

theorem CBlockHeader.reads (block : CBlockHeader) :
    Reads CBlockHeader.unserialize block.serialize block := by
  rw [CBlockHeader.serialize]
  simp only [List.append_assoc]
  exact (reads_int32 block.nVersion).bind ((reads_uint256 block.hashPrevBlock).bind
    ((reads_uint256 block.hashMerkleRoot).bind ((reads_uint32 block.nTime).bind
      ((reads_uint32 block.nBits).bind ((reads_uint32 block.nNonce).map _)))))

/-- The vectors and the scripts of a block are within the limit. -/
structure CBlock.Sized (block : CBlock) : Prop where
  vtx : block.vtx.length ≤ MAX_SIZE
  tx : ∀ tx ∈ block.vtx, tx.Sized

/-- A block whose vectors are within the limit is read back. -/
theorem CBlock.Sized.reads {block : CBlock} (h : block.Sized) :
    Reads CBlock.unserialize block.serialize block :=
  block.toCBlockHeader.reads.bind
    ((reads_vector (fun tx hmem => (h.tx tx hmem).reads) h.vtx).map _)

/-- A block whose serialization is within the limit is read back. -/
theorem CBlock.reads {block : CBlock} (h : block.serialize.length ≤ MAX_SIZE) :
    Reads CBlock.unserialize block.serialize block := by
  rw [CBlock.serialize, List.length_append] at h
  have hvtx := length_le_length_serializeVector (v := block.vtx) fun tx _ => tx.length_serialize_pos
  refine CBlock.Sized.reads ⟨by omega, fun tx hmem => CTransaction.sized ?_⟩
  have hle := length_le_serializeVector CTransaction.serialize hmem
  omega

end Ticoin
