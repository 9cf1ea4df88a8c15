import Ticoin.WireFormat

/-!
# serialize.h : the wire format is canonical

Reading back what was written is in `WireFormat`. Here is the converse : whatever bytes a
transaction or a block is read from are those it is written as (`CTransaction.canonical`,
`CBlock.canonical`), so no two byte strings are read as the same transaction. For that a
compact size has one form only (`ok_of_readCompactSize`).

The source reads a vector in batches, so that a bogus size does not allocate more than there
are bytes for. What is read is the same (`readBlocks_eq`, `readBatches_eq`).

`GetSerializeSize` adds `unsigned int`s up and never writes : it is the number of bytes written
modulo `2 ^ 32` (`CTransaction.getSerializeSize_eq`).
-/

namespace Ticoin

open Codec

/-! ## Batches -/

/-- The loop of `Unserialize_impl` for a vector of bytes. -/
def readBlocks (nLeft : ℕ) : Reader Bytes :=
  if _h : nLeft = 0 then pure []
  else do
    let block ← readBytes endOfData (min nLeft 5000000)
    let rest ← readBlocks (nLeft - min nLeft 5000000)
    return block ++ rest
termination_by nLeft

/-- The loop of `Unserialize_impl` for a vector of other elements, `nBatch` of which are no more
than 5000000 bytes of memory. -/
def readBatches {α : Type} (dec : Reader α) (nBatch : ℕ+) (nLeft : ℕ) : Reader (List α) :=
  if _h : nLeft = 0 then pure []
  else do
    let batch ← readN dec (min nLeft nBatch)
    let rest ← readBatches dec nBatch (nLeft - min nLeft nBatch)
    return batch ++ rest
termination_by nLeft
decreasing_by
  have := nBatch.pos
  omega

/-- Blocks are read as all bytes at once. -/
theorem readBlocks_eq (nLeft : ℕ) : readBlocks nLeft = readBytes endOfData nLeft := by
  induction nLeft using Nat.strong_induction_on with
  | _ nLeft ih =>
  rw [readBlocks]
  split
  · rename_i h
    subst h
    rfl
  · rename_i h
    rw [ih _ (by omega)]
    refine (readBytes_add endOfData _ _).symm.trans ?_
    rw [Nat.add_sub_cancel' (Nat.min_le_left _ _)]

/-- Batches are read as all elements one after the other. -/
theorem readBatches_eq {α : Type} (dec : Reader α) (nBatch : ℕ+) (nLeft : ℕ) :
    readBatches dec nBatch nLeft = readN dec nLeft := by
  induction nLeft using Nat.strong_induction_on with
  | _ nLeft ih =>
  rw [readBatches]
  split
  · rename_i h
    subst h
    rfl
  · rename_i h
    have := nBatch.pos
    rw [ih _ (by omega)]
    refine (readN_add dec _ _).symm.trans ?_
    rw [Nat.add_sub_cancel' (Nat.min_le_left _ _)]

/-! ## What is accepted -/

theorem canonical_uint32 : Canonical unserializeUInt32 serializeUInt32 := by
  intro s n rest h
  obtain ⟨m, s', hread, h⟩ := ok_of_bind h
  obtain ⟨rfl, rfl⟩ := ok_of_pure h
  obtain ⟨hlt, rfl⟩ := ok_of_readLe hread
  rw [serializeUInt32, UInt32.toNat_ofNat_of_lt' hlt]

theorem canonical_int32 : Canonical unserializeInt32 serializeInt32 := by
  intro s n rest h
  obtain ⟨m, s', hread, h⟩ := ok_of_bind h
  obtain ⟨rfl, rfl⟩ := ok_of_pure h
  exact canonical_uint32 hread

theorem canonical_int64 : Canonical unserializeInt64 serializeInt64 := by
  intro s n rest h
  obtain ⟨m, s', hread, h⟩ := ok_of_bind h
  obtain ⟨rfl, rfl⟩ := ok_of_pure h
  obtain ⟨hlt, rfl⟩ := ok_of_readLe hread
  rw [serializeInt64]
  have htoNat : (UInt64.ofNat m).toInt64.toUInt64.toNat = m := UInt64.toNat_ofNat_of_lt' hlt
  rw [htoNat]

theorem canonical_uint256 : Canonical unserializeUInt256 serializeUInt256 := by
  intro s n rest h
  obtain ⟨m, s', hread, h⟩ := ok_of_bind h
  obtain ⟨rfl, rfl⟩ := ok_of_pure h
  obtain ⟨hlt, rfl⟩ := ok_of_readLe hread
  have hlt' : m < 2 ^ 256 := hlt
  rw [serializeUInt256, BitVec.toNat_ofNat, Nat.mod_eq_of_lt hlt']

theorem ok_of_readLongSize {k least n : ℕ} {s rest : Bytes}
    (h : readLongSize k least s = .ok (n, rest)) :
    n < 256 ^ k ∧ least ≤ n ∧ s = leBytes k n ++ rest := by
  obtain ⟨m, s₁, hread, h⟩ := ok_of_bind h
  obtain ⟨u, s₂, hfail, h⟩ := ok_of_bind h
  obtain ⟨rfl, rfl⟩ := ok_of_pure h
  obtain ⟨hle, rfl⟩ := ok_of_failIf hfail
  obtain ⟨hlt, rfl⟩ := ok_of_readLe hread
  exact ⟨hlt, not_lt.mp hle, rfl⟩

/-- Each form of a compact size is only accepted for the sizes that are written in it. -/
theorem ok_of_readSizeAfter {c n : ℕ} (hc : c < 256) {s rest : Bytes}
    (h : readSizeAfter c s = .ok (n, rest)) : leBytes 1 c ++ s = writeCompactSize n ++ rest := by
  unfold readSizeAfter at h
  split at h
  · rename_i hsmall
    obtain ⟨rfl, rfl⟩ := ok_of_pure h
    rw [writeCompactSize, if_pos hsmall]
  split at h
  · rename_i hc
    obtain ⟨hlt, hle, rfl⟩ := ok_of_readLongSize h
    rw [writeCompactSize, if_neg (by omega), if_pos (by omega), hc, List.append_assoc]
  split at h
  · rename_i hc
    obtain ⟨hlt, hle, rfl⟩ := ok_of_readLongSize h
    rw [writeCompactSize, if_neg (by omega), if_neg (by omega), if_pos (by omega), hc,
      List.append_assoc]
  · obtain ⟨hlt, hle, rfl⟩ := ok_of_readLongSize h
    have hc255 : c = 255 := by omega
    rw [writeCompactSize, if_neg (by omega), if_neg (by omega), if_neg (by omega), hc255,
      List.append_assoc]

theorem canonical_compactSize : Canonical readCompactSize writeCompactSize := by
  intro s n rest h
  obtain ⟨c, s₁, hread, h⟩ := ok_of_bind h
  obtain ⟨m, s₂, hsize, h⟩ := ok_of_bind h
  obtain ⟨u, s₃, hfail, h⟩ := ok_of_bind h
  obtain ⟨rfl, rfl⟩ := ok_of_pure h
  obtain ⟨-, rfl⟩ := ok_of_failIf hfail
  obtain ⟨hlt, rfl⟩ := ok_of_readLe hread
  exact ok_of_readSizeAfter hlt hsize

theorem canonical_bytes : Canonical unserializeBytes serializeBytes := by
  intro s v rest h
  obtain ⟨n, s₁, hsize, h⟩ := ok_of_bind h
  obtain ⟨rfl, rfl⟩ := ok_of_readBytes h
  rw [canonical_compactSize hsize, serializeBytes, List.append_assoc]

theorem canonical_vector {α : Type} {dec : Reader α} {enc : α → Bytes} (hdec : Canonical dec enc) :
    Canonical (unserializeVector dec) (serializeVector enc) := by
  intro s v rest h
  obtain ⟨n, s₁, hsize, h⟩ := ok_of_bind h
  obtain ⟨rfl, rfl⟩ := hdec.readN h
  rw [canonical_compactSize hsize, serializeVector, List.append_assoc]

theorem COutPoint.canonical : Canonical COutPoint.unserialize COutPoint.serialize := by
  intro s o rest h
  obtain ⟨hash, s₁, hhash, h⟩ := ok_of_bind h
  obtain ⟨n, s₂, hn, h⟩ := ok_of_bind h
  obtain ⟨rfl, rfl⟩ := ok_of_pure h
  rw [canonical_uint256 hhash, canonical_uint32 hn, COutPoint.serialize, List.append_assoc]

theorem CTxIn.canonical : Canonical CTxIn.unserialize CTxIn.serialize := by
  intro s txin rest h
  obtain ⟨prevout, s₁, hprevout, h⟩ := ok_of_bind h
  obtain ⟨scriptSig, s₂, hscript, h⟩ := ok_of_bind h
  obtain ⟨nSequence, s₃, hsequence, h⟩ := ok_of_bind h
  obtain ⟨rfl, rfl⟩ := ok_of_pure h
  rw [COutPoint.canonical hprevout, canonical_bytes hscript, canonical_uint32 hsequence,
    CTxIn.serialize, List.append_assoc, List.append_assoc]

theorem CTxOut.canonical : Canonical CTxOut.unserialize CTxOut.serialize := by
  intro s txout rest h
  obtain ⟨nValue, s₁, hvalue, h⟩ := ok_of_bind h
  obtain ⟨scriptPubKey, s₂, hscript, h⟩ := ok_of_bind h
  obtain ⟨rfl, rfl⟩ := ok_of_pure h
  rw [canonical_int64 hvalue, canonical_bytes hscript, CTxOut.serialize, List.append_assoc]

/-- A transaction is read from what it is written as, and from nothing else. -/
theorem CTransaction.canonical : Canonical CTransaction.unserialize CTransaction.serialize := by
  intro s tx rest h
  obtain ⟨nVersion, s₁, hversion, h⟩ := ok_of_bind h
  obtain ⟨vin, s₂, hvin, h⟩ := ok_of_bind h
  obtain ⟨vout, s₃, hvout, h⟩ := ok_of_bind h
  obtain ⟨nLockTime, s₄, htime, h⟩ := ok_of_bind h
  obtain ⟨rfl, rfl⟩ := ok_of_pure h
  rw [canonical_int32 hversion, canonical_vector CTxIn.canonical hvin,
    canonical_vector CTxOut.canonical hvout, canonical_uint32 htime]
  simp only [CTransaction.serialize, List.append_assoc]

theorem CBlockHeader.canonical : Canonical CBlockHeader.unserialize CBlockHeader.serialize := by
  intro s block rest h
  obtain ⟨nVersion, s₁, hversion, h⟩ := ok_of_bind h
  obtain ⟨hashPrevBlock, s₂, hprev, h⟩ := ok_of_bind h
  obtain ⟨hashMerkleRoot, s₃, hroot, h⟩ := ok_of_bind h
  obtain ⟨nTime, s₄, htime, h⟩ := ok_of_bind h
  obtain ⟨nBits, s₅, hbits, h⟩ := ok_of_bind h
  obtain ⟨nNonce, s₆, hnonce, h⟩ := ok_of_bind h
  obtain ⟨rfl, rfl⟩ := ok_of_pure h
  rw [canonical_int32 hversion, canonical_uint256 hprev, canonical_uint256 hroot,
    canonical_uint32 htime, canonical_uint32 hbits, canonical_uint32 hnonce]
  simp only [CBlockHeader.serialize, List.append_assoc]

/-- A block is read from what it is written as, and from nothing else. -/
theorem CBlock.canonical : Canonical CBlock.unserialize CBlock.serialize := by
  intro s block rest h
  obtain ⟨header, s₁, hheader, h⟩ := ok_of_bind h
  obtain ⟨vtx, s₂, hvtx, h⟩ := ok_of_bind h
  obtain ⟨rfl, rfl⟩ := ok_of_pure h
  rw [CBlockHeader.canonical hheader, canonical_vector CTransaction.canonical hvtx,
    CBlock.serialize, List.append_assoc]

/-! ## GetSerializeSize -/

/-- `GetSizeOfCompactSize`. -/
def getSizeOfCompactSize (nSize : ℕ) : UInt32 :=
  if nSize < 253 then 1
  else if nSize ≤ 0xffff then 1 + 2
  else if nSize ≤ 0xffffffff then 1 + 4
  else 1 + 8

/-- `GetSerializeSize` of a vector of bytes. -/
def getSizeOfBytes (v : Bytes) : UInt32 := getSizeOfCompactSize v.length + UInt32.ofNat v.length

/-- `GetSerializeSize` of a vector of other elements. -/
def getSizeOfVector {α : Type} (size : α → UInt32) (v : List α) : UInt32 :=
  v.foldl (fun nSize a => nSize + size a) (getSizeOfCompactSize v.length)

/-- The size of the object in memory, which is written as it is. -/
def COutPoint.getSerializeSize (_o : COutPoint) : UInt32 := 36

def CTxIn.getSerializeSize (txin : CTxIn) : UInt32 :=
  0 + txin.prevout.getSerializeSize + getSizeOfBytes txin.scriptSig + 4

def CTxOut.getSerializeSize (txout : CTxOut) : UInt32 := 0 + 8 + getSizeOfBytes txout.scriptPubKey

def CTransaction.getSerializeSize (tx : CTransaction) : UInt32 :=
  0 + 4 + getSizeOfVector CTxIn.getSerializeSize tx.vin +
    getSizeOfVector CTxOut.getSerializeSize tx.vout + 4

def CBlockHeader.getSerializeSize (_block : CBlockHeader) : UInt32 := 0 + 4 + 32 + 32 + 4 + 4 + 4

def CBlock.getSerializeSize (block : CBlock) : UInt32 :=
  0 + block.toCBlockHeader.getSerializeSize +
    getSizeOfVector CTransaction.getSerializeSize block.vtx

theorem getSizeOfCompactSize_eq (n : ℕ) :
    getSizeOfCompactSize n = UInt32.ofNat (writeCompactSize n).length := by
  unfold getSizeOfCompactSize writeCompactSize
  repeat' split
  all_goals simp only [List.length_append, length_leBytes]; rfl

theorem getSizeOfBytes_eq (v : Bytes) :
    getSizeOfBytes v = UInt32.ofNat (serializeBytes v).length := by
  rw [getSizeOfBytes, getSizeOfCompactSize_eq, serializeBytes, List.length_append, UInt32.ofNat_add]

theorem getSizeOfVector_eq {α : Type} {size : α → UInt32} {enc : α → Bytes}
    (h : ∀ a, size a = UInt32.ofNat (enc a).length) (v : List α) :
    getSizeOfVector size v = UInt32.ofNat (serializeVector enc v).length := by
  have hfold : ∀ (v : List α) (n : ℕ), v.foldl (fun nSize a => nSize + size a) (UInt32.ofNat n) =
      UInt32.ofNat (n + (v.flatMap enc).length) := by
    intro v
    induction v with
    | nil => intro n; rfl
    | cons a v ih =>
      intro n
      rw [List.foldl_cons, h, ← UInt32.ofNat_add, ih, List.flatMap_cons, List.length_append,
        Nat.add_assoc]
  rw [getSizeOfVector, getSizeOfCompactSize_eq, hfold, serializeVector, List.length_append]

theorem COutPoint.length_serialize (o : COutPoint) : o.serialize.length = 36 := by
  simp [COutPoint.serialize, serializeUInt256, serializeUInt32]

theorem CTxIn.getSerializeSize_eq (txin : CTxIn) :
    txin.getSerializeSize = UInt32.ofNat txin.serialize.length := by
  rw [CTxIn.getSerializeSize, getSizeOfBytes_eq, CTxIn.serialize, List.length_append,
    List.length_append, COutPoint.length_serialize, UInt32.ofNat_add, UInt32.ofNat_add,
    serializeUInt32, length_leBytes]
  rfl

theorem CTxOut.getSerializeSize_eq (txout : CTxOut) :
    txout.getSerializeSize = UInt32.ofNat txout.serialize.length := by
  rw [CTxOut.getSerializeSize, getSizeOfBytes_eq, CTxOut.serialize, List.length_append,
    UInt32.ofNat_add, serializeInt64, length_leBytes]
  rfl

/-- The size of a transaction is that of what is written, as an `unsigned int`. -/
theorem CTransaction.getSerializeSize_eq (tx : CTransaction) :
    tx.getSerializeSize = UInt32.ofNat tx.serialize.length := by
  rw [CTransaction.getSerializeSize, getSizeOfVector_eq CTxIn.getSerializeSize_eq,
    getSizeOfVector_eq CTxOut.getSerializeSize_eq, CTransaction.serialize, List.length_append,
    List.length_append, List.length_append, UInt32.ofNat_add, UInt32.ofNat_add, UInt32.ofNat_add,
    serializeInt32, serializeUInt32, serializeUInt32, length_leBytes, length_leBytes]
  rfl

theorem CBlock.getSerializeSize_eq (block : CBlock) :
    block.getSerializeSize = UInt32.ofNat block.serialize.length := by
  have hheader : block.toCBlockHeader.serialize.length = 80 := by
    simp [CBlockHeader.serialize, serializeInt32, serializeUInt32, serializeUInt256]
  rw [CBlock.getSerializeSize, getSizeOfVector_eq CTransaction.getSerializeSize_eq, CBlock.serialize,
    List.length_append, hheader, UInt32.ofNat_add]
  rfl

/-! ## The format -/

/-- Transactions and blocks within the limits are read back, whatever is read is written as the
bytes it was read from, and sizes are counted modulo `2 ^ 32`. -/
theorem canonical_wire_format :
    (∀ tx : CTransaction, tx.Sized → Reads CTransaction.unserialize tx.serialize tx) ∧
    (∀ block : CBlock, block.Sized → Reads CBlock.unserialize block.serialize block) ∧
    (∀ (s : Bytes) (tx : CTransaction) (rest : Bytes),
      CTransaction.unserialize s = .ok (tx, rest) → s = tx.serialize ++ rest) ∧
    (∀ (s : Bytes) (block : CBlock) (rest : Bytes),
      CBlock.unserialize s = .ok (block, rest) → s = block.serialize ++ rest) ∧
    (∀ tx : CTransaction, tx.getSerializeSize.toNat = tx.serialize.length % 2 ^ 32) ∧
    ∀ block : CBlock, block.getSerializeSize.toNat = block.serialize.length % 2 ^ 32 := by
  refine ⟨fun tx h => h.reads, fun block h => h.reads, fun s tx rest h => CTransaction.canonical h,
    fun s block rest h => CBlock.canonical h, fun tx => ?_, fun block => ?_⟩
  · rw [tx.getSerializeSize_eq, UInt32.toNat_ofNat']
  · rw [block.getSerializeSize_eq, UInt32.toNat_ofNat']

/-- A transaction of 128 inputs with the same script. -/
def repeatedInput (scriptSig : Bytes) : CTransaction where
  nVersion := 1
  vin := List.replicate 128 ⟨.null, scriptSig, 0xffffffff⟩
  vout := []
  nLockTime := 0

theorem repeatedInput_sized {scriptSig : Bytes} (h : scriptSig.length ≤ MAX_SIZE) :
    (repeatedInput scriptSig).Sized where
  vin := by
    rw [repeatedInput, List.length_replicate]
    decide
  scriptSig txin hmem := by rwa [List.eq_of_mem_replicate hmem]
  vout := Nat.zero_le _
  scriptPubKey := nofun

theorem length_repeatedInput (scriptSig : Bytes) :
    128 * scriptSig.length ≤ (repeatedInput scriptSig).serialize.length := by
  have hinput : ∀ txin : CTxIn, txin.scriptSig.length ≤ txin.serialize.length := fun txin => by
    rw [CTxIn.serialize, List.length_append, List.length_append]
    have := length_le_serializeBytes txin.scriptSig
    omega
  have hvin : (serializeVector CTxIn.serialize (repeatedInput scriptSig).vin).length ≤
      (repeatedInput scriptSig).serialize.length := by
    simp only [CTransaction.serialize, List.length_append]
    omega
  refine le_trans ?_ hvin
  rw [serializeVector, List.length_append, List.length_flatMap, repeatedInput, List.map_replicate,
    List.sum_replicate, smul_eq_mul]
  exact (Nat.mul_le_mul_left 128 (hinput ⟨.null, scriptSig, 0xffffffff⟩)).trans (Nat.le_add_left _ _)

/-- With scripts of the maximum size more bytes are written than an `unsigned int` counts. -/
theorem size_ne_of_large : (repeatedInput (List.replicate MAX_SIZE 0)).Sized ∧
    (repeatedInput (List.replicate MAX_SIZE 0)).getSerializeSize.toNat ≠
      (repeatedInput (List.replicate MAX_SIZE 0)).serialize.length := by
  have hlen : (List.replicate MAX_SIZE (0 : UInt8)).length = MAX_SIZE := List.length_replicate
  generalize List.replicate MAX_SIZE (0 : UInt8) = scriptSig at hlen
  refine ⟨repeatedInput_sized hlen.le, ?_⟩
  have hlt := (repeatedInput scriptSig).getSerializeSize.toNat_lt
  have hle := length_repeatedInput scriptSig
  rw [hlen, MAX_SIZE] at hle
  omega

end Ticoin
