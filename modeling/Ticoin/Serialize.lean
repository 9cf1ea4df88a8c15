import Ticoin.Lib.Codec

/-!
# serialize.h : the primitives of the wire and disk formats

Integers are written in the byte order of the supported targets, least significant byte
first, and a `uint256` as its 32 bytes. A vector is its length as a compact size followed
by its elements. Readers fail with the text of the exception the stream throws.

Each primitive is read back from what it wrote : `reads_uint32`, `reads_uint256`,
`reads_compactSize` and, for vectors of at most `MAX_SIZE` elements, `reads_vector` and
`reads_bytes`.
-/

namespace Ticoin

open Codec

abbrev UInt256 := BitVec 256

abbrev UInt160 := BitVec 160

/-- Maps are ordered by these as numbers. -/
instance transOrdUInt256 : Std.TransOrd UInt256 := inferInstance

instance transOrdUInt160 : Std.TransOrd UInt160 := inferInstance

/-- Readers of a `CDataStream`, failing with the text of the exception. -/
abbrev Reader := Parser String

def MAX_SIZE : ℕ := 0x02000000

/-- What `CDataStream::read` throws. -/
def endOfData : String := "CDataStream::read() : end of data"

/-! ## Integers -/

def serializeUInt32 (n : UInt32) : Bytes := leBytes 4 n.toNat

def serializeInt32 (n : Int32) : Bytes := serializeUInt32 n.toUInt32

def serializeInt64 (n : Int64) : Bytes := leBytes 8 n.toUInt64.toNat

def serializeUInt256 (n : UInt256) : Bytes := leBytes 32 n.toNat

def unserializeUInt32 : Reader UInt32 := do
  let n ← readLe endOfData 4
  return UInt32.ofNat n

def unserializeUInt256 : Reader UInt256 := do
  let n ← readLe endOfData 32
  return BitVec.ofNat 256 n

theorem reads_uint32 (n : UInt32) : Reads unserializeUInt32 (serializeUInt32 n) n := by
  have h := (reads_readLe endOfData (k := 4) n.toNat_lt).map UInt32.ofNat
  rw [UInt32.ofNat_toNat] at h
  exact h

theorem reads_uint256 (n : UInt256) : Reads unserializeUInt256 (serializeUInt256 n) n := by
  have hlt : n.toNat < 256 ^ 32 := n.isLt
  have h := (reads_readLe endOfData hlt).map (BitVec.ofNat 256)
  rw [BitVec.ofNat_toNat, BitVec.setWidth_eq] at h
  exact h

/-! ## Compact sizes -/

/-- `WriteCompactSize`. -/
def writeCompactSize (nSize : ℕ) : Bytes :=
  if nSize < 253 then leBytes 1 nSize
  else if nSize ≤ 0xffff then leBytes 1 253 ++ leBytes 2 nSize
  else if nSize ≤ 0xffffffff then leBytes 1 254 ++ leBytes 4 nSize
  else leBytes 1 255 ++ leBytes 8 nSize

/-- A size of `k` bytes that a shorter form could not have written. -/
def readLongSize (k least : ℕ) : Reader ℕ := do
  let xSize ← readLe endOfData k
  failIf "non-canonical ReadCompactSize()" (xSize < least)
  return xSize

/-- The rest of a size, from its first byte. -/
def readSizeAfter (chSize : ℕ) : Reader ℕ :=
  if chSize < 253 then pure chSize
  else if chSize = 253 then readLongSize 2 253
  else if chSize = 254 then readLongSize 4 0x10000
  else readLongSize 8 0x100000000

/-- `ReadCompactSize`. -/
def readCompactSize : Reader ℕ := do
  let chSize ← readLe endOfData 1
  let nSizeRet ← readSizeAfter chSize
  failIf "ReadCompactSize() : size too large" (nSizeRet > MAX_SIZE)
  return nSizeRet

theorem reads_longSize {k least n : ℕ} (h : n < 256 ^ k) (hn : least ≤ n) :
    Reads (readLongSize k least) (leBytes k n) n :=
  (reads_readLe endOfData h).bind_nil ((reads_failIf _ hn.not_gt).map fun _ => n)

theorem reads_sizeForm {c n : ℕ} {bs : Bytes} (hc : c < 256) (hn : n ≤ MAX_SIZE)
    (h : Reads (readSizeAfter c) bs n) : Reads readCompactSize (leBytes 1 c ++ bs) n :=
  (reads_readLe endOfData (k := 1) hc).bind
    (h.bind_nil ((reads_failIf _ hn.not_gt).map fun _ => n))

/-- A size written by `WriteCompactSize` within the limit is read back. -/
theorem reads_compactSize {n : ℕ} (h : n ≤ MAX_SIZE) :
    Reads readCompactSize (writeCompactSize n) n := by
  have hmax : n ≤ 0x02000000 := h
  unfold writeCompactSize
  split
  · have hread : Reads (readSizeAfter n) [] n := by
      rw [readSizeAfter, if_pos (by omega)]
      exact Reads.pure n
    simpa using reads_sizeForm (by omega) h hread
  · split
    · exact reads_sizeForm (by omega) h (reads_longSize (k := 2) (by omega) (by omega))
    · split
      · exact reads_sizeForm (by omega) h (reads_longSize (k := 4) (by omega) (by omega))
      · omega

/-! ## Vectors -/

/-- `Serialize` of a vector whose elements are not of a fundamental type. -/
def serializeVector {α : Type} (enc : α → Bytes) (v : List α) : Bytes :=
  writeCompactSize v.length ++ v.flatMap enc

def unserializeVector {α : Type} (dec : Reader α) : Reader (List α) := do
  let nSize ← readCompactSize
  readN dec nSize

/-- `Serialize` of a vector of bytes. -/
def serializeBytes (v : Bytes) : Bytes := writeCompactSize v.length ++ v

def unserializeBytes : Reader Bytes := do
  let nSize ← readCompactSize
  readBytes endOfData nSize

theorem reads_vector {α : Type} {enc : α → Bytes} {dec : Reader α} {v : List α}
    (hv : ∀ a ∈ v, Reads dec (enc a) a) (hlen : v.length ≤ MAX_SIZE) :
    Reads (unserializeVector dec) (serializeVector enc v) v :=
  (reads_compactSize hlen).bind (reads_readN hv)

theorem reads_bytes {v : Bytes} (hlen : v.length ≤ MAX_SIZE) :
    Reads unserializeBytes (serializeBytes v) v :=
  (reads_compactSize hlen).bind (reads_readBytes endOfData v)

end Ticoin
