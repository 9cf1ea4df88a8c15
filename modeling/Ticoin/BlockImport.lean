import Ticoin.BufferedFile
import Ticoin.ChainParams
import Ticoin.WireFormat

/-!
# LoadExternalBlockFile

A block file is searched for the message start bytes, a size and a block. After a block the search
goes on behind it, and after anything else one byte behind the start bytes : `SetPos` goes back there,
unless more than `nRewind` bytes have been read from the file since, and the loop ends where decoding
came to the end of the file.

What a pass hands to `ProcessBlock` is what a search over the bytes finds (`Scans`,
`loadExternalBlockFile_scans`), and this is every well-formed record that does not start within an
earlier one exactly where no well-formed record lies between a failure and the place the search goes
on from (`importsEveryRecord_iff`).
-/

namespace Ticoin

open Codec

/-! ## The requests of a block -/

namespace Reading

def uint32 : ReadProg String UInt32 := do
  let n ← ReadProg.le 4
  return UInt32.ofNat n

def uint256 : ReadProg String UInt256 := do
  let n ← ReadProg.le 32
  return BitVec.ofNat 256 n

def int32 : ReadProg String Int32 := do
  let n ← uint32
  return n.toInt32

def int64 : ReadProg String Int64 := do
  let n ← ReadProg.le 8
  return (UInt64.ofNat n).toInt64

def longSize (k least : ℕ) : ReadProg String ℕ := do
  let xSize ← ReadProg.le k
  ReadProg.failWhen "non-canonical ReadCompactSize()" (xSize < least)
  return xSize

def sizeAfter (chSize : ℕ) : ReadProg String ℕ :=
  if chSize < 253 then pure chSize
  else if chSize = 253 then longSize 2 253
  else if chSize = 254 then longSize 4 0x10000
  else longSize 8 0x100000000

def compactSize : ReadProg String ℕ := do
  let chSize ← ReadProg.le 1
  let nSizeRet ← sizeAfter chSize
  ReadProg.failWhen "ReadCompactSize() : size too large" (nSizeRet > MAX_SIZE)
  return nSizeRet

def vector {α : Type} (p : ReadProg String α) : ReadProg String (List α) := do
  let nSize ← compactSize
  p.times nSize

def byteVector : ReadProg String Bytes := do
  let nSize ← compactSize
  ReadProg.bytes nSize

def outPoint : ReadProg String COutPoint := do
  let hash ← uint256
  let n ← uint32
  return ⟨hash, n⟩

def txIn : ReadProg String CTxIn := do
  let prevout ← outPoint
  let scriptSig ← byteVector
  let nSequence ← uint32
  return ⟨prevout, scriptSig, nSequence⟩

def txOut : ReadProg String CTxOut := do
  let nValue ← int64
  let scriptPubKey ← byteVector
  return ⟨nValue, scriptPubKey⟩

def transaction : ReadProg String CTransaction := do
  let nVersion ← int32
  let vin ← vector txIn
  let vout ← vector txOut
  let nLockTime ← uint32
  return ⟨nVersion, vin, vout, nLockTime⟩

def blockHeader : ReadProg String CBlockHeader := do
  let nVersion ← int32
  let hashPrevBlock ← uint256
  let hashMerkleRoot ← uint256
  let nTime ← uint32
  let nBits ← uint32
  let nNonce ← uint32
  return ⟨nVersion, hashPrevBlock, hashMerkleRoot, nTime, nBits, nNonce⟩

/-- The requests of `Unserialize` of a block. -/
def block : ReadProg String CBlock := do
  let header ← blockHeader
  let vtx ← vector transaction
  return { header with vtx := vtx }

@[simp] theorem toParser_uint32 : uint32.toParser endOfData = unserializeUInt32 := by
  simp [uint32, unserializeUInt32]

@[simp] theorem toParser_uint256 : uint256.toParser endOfData = unserializeUInt256 := by
  simp [uint256, unserializeUInt256]

@[simp] theorem toParser_int32 : int32.toParser endOfData = unserializeInt32 := by
  simp [int32, unserializeInt32]

@[simp] theorem toParser_int64 : int64.toParser endOfData = unserializeInt64 := by
  simp [int64, unserializeInt64]

@[simp] theorem toParser_longSize (k least : ℕ) :
    (longSize k least).toParser endOfData = readLongSize k least := by
  simp [longSize, readLongSize]

@[simp] theorem toParser_sizeAfter (chSize : ℕ) :
    (sizeAfter chSize).toParser endOfData = readSizeAfter chSize := by
  unfold sizeAfter readSizeAfter
  split_ifs <;> simp

@[simp] theorem toParser_compactSize : compactSize.toParser endOfData = readCompactSize := by
  simp [compactSize, readCompactSize]

@[simp] theorem toParser_vector {α : Type} (p : ReadProg String α) :
    (vector p).toParser endOfData = unserializeVector (p.toParser endOfData) := by
  simp [vector, unserializeVector]

@[simp] theorem toParser_byteVector : byteVector.toParser endOfData = unserializeBytes := by
  simp [byteVector, unserializeBytes]

@[simp] theorem toParser_outPoint : outPoint.toParser endOfData = COutPoint.unserialize := by
  simp [outPoint, COutPoint.unserialize]

@[simp] theorem toParser_txIn : txIn.toParser endOfData = CTxIn.unserialize := by
  simp [txIn, CTxIn.unserialize]

@[simp] theorem toParser_txOut : txOut.toParser endOfData = CTxOut.unserialize := by
  simp [txOut, CTxOut.unserialize]

@[simp] theorem toParser_transaction :
    transaction.toParser endOfData = CTransaction.unserialize := by
  simp [transaction, CTransaction.unserialize]

@[simp] theorem toParser_blockHeader :
    blockHeader.toParser endOfData = CBlockHeader.unserialize := by
  simp [blockHeader, CBlockHeader.unserialize]

/-- Over bytes the requests are those of the reader of a block. -/
@[simp] theorem toParser_block : block.toParser endOfData = CBlock.unserialize := by
  simp [block, CBlock.unserialize]

variable {src : Bytes} {limit pos last : ℕ} {b : CBlock}

/-- A block is decoded within a limit as its reader does from the bytes up to the limit. -/
theorem ending_block_eq_ok_iff (hlimit : pos ≤ limit) (hlen : pos ≤ src.length)
    (hmost : limit ≤ pos + 1000000) :
    block.ending src limit 999992 pos = .ok b last ↔
      ∃ rest, CBlock.unserialize (ReadProg.upTo src limit pos) = .ok (b, rest) ∧
        last + rest.length = min limit src.length := by
  obtain ⟨next, hnext⟩ : ∃ next : Bytes → Bytes → ReadProg String CBlock,
      block = .read 4 fun version => .read 32 (next version) := ⟨_, rfl⟩
  rw [← toParser_block, hnext]
  -- the first requests are small, and after them less than the most is left
  refine ReadProg.ending_read_eq_ok_iff endOfData hlimit hlen (by omega) fun hlimit₁ hlen₁ version => ?_
  refine ReadProg.ending_read_eq_ok_iff endOfData hlimit₁ hlen₁ (by omega) fun hlimit₂ hlen₂ prev => ?_
  exact ReadProg.ending_eq_ok_iff endOfData hlimit₂ hlen₂ (by omega)

end Reading

/-! ## LoadExternalBlockFile -/

/-- What `ProcessBlock` does with a block : it returns, with a `CValidationState`, or throws. -/
inductive ProcessReport
  | returned (fProcessed fError : Bool)
  | threw
  deriving DecidableEq

/-- `LoadExternalBlockFile` between two rounds of its loop, with the blocks handed to `ProcessBlock`
by their position. -/
structure BlockImport where
  blkdat : CBufferedFile
  nRewind : ℕ
  nLoaded : ℕ
  handed : List (ℕ × CBlock)

variable (network : Network)

/-- Locate a header : the next `nRewind`, and the size of the block unless it is not one. -/
def locateHeader : BufferM (ℕ × Option ℕ) := do
  CBufferedFile.findByte ((messageStart network).headD 0)
  let nPos ← CBufferedFile.getPos
  let nRewind := nPos + 1
  let buf ← CBufferedFile.read 4
  if buf ≠ messageStart network then return (nRewind, none)
  let size ← CBufferedFile.read 4
  let nSize := ofLeBytes size
  if nSize < 80 ∨ nSize > MAX_BLOCK_SIZE then return (nRewind, none)
  return (nRewind, some nSize)

variable (process : ℕ → CBlock → ProcessReport)

/-- Hand a block to `ProcessBlock`, and whether the loop goes on. -/
def handBlock (nBlockPos : ℕ) (block : CBlock) (s : BlockImport) : BlockImport × Bool :=
  let s := { s with handed := s.handed ++ [(nBlockPos, block)] }
  match process nBlockPos block with
  | .threw => (s, true)
  | .returned fProcessed fError => ({ s with nLoaded := s.nLoaded + fProcessed.toNat }, !fError)

/-- The loop of `LoadExternalBlockFile`, in some rounds. -/
def loadLoop (nStartByte : ℕ) : ℕ → BlockImport → Option BlockImport
  | 0, _ => none
  | n + 1, s =>
    if s.blkdat.good && !s.blkdat.eof then
      match locateHeader network ((s.blkdat.setPos s.nRewind).setLimit none) with
      | none => none
      | some (.error _, blkdat) => some { s with blkdat := blkdat }
      | some (.ok (nRewind, none), blkdat) =>
        loadLoop nStartByte n { s with blkdat := blkdat, nRewind := nRewind }
      | some (.ok (nRewind, some nSize), blkdat) =>
        let nBlockPos := blkdat.nReadPos
        match CBufferedFile.runProgram Reading.block (blkdat.setLimit (some (nBlockPos + nSize))) with
        | none => none
        | some (.error _, blkdat) =>
          loadLoop nStartByte n { s with blkdat := blkdat, nRewind := nRewind }
        | some (.ok block, blkdat) =>
          let s := { s with blkdat := blkdat, nRewind := blkdat.nReadPos }
          if nStartByte ≤ nBlockPos then
            match handBlock process nBlockPos block s with
            | (s, true) => loadLoop nStartByte n s
            | (s, false) => some s
          else loadLoop nStartByte n s
    else some s

/-- `LoadExternalBlockFile` in some rounds, with the `nSize` of the `CBlockFileInfo` of a block file
that is partly indexed. -/
def loadExternalBlockFile (n : ℕ) (fileIn : Bytes) (info : Option ℕ) : Option BlockImport :=
  let blkdat := CBufferedFile.new fileIn (2 * MAX_BLOCK_SIZE) (MAX_BLOCK_SIZE + 8)
  let blkdat := match info with
    | none => blkdat
    | some nSize => blkdat.seek nSize
  loadLoop network process (info.getD 0) n
    { blkdat := blkdat, nRewind := blkdat.nReadPos, nLoaded := 0, handed := [] }

/-! ## Records -/

/-- The size field of a record. -/
def sizeAt (src : Bytes) (r : ℕ) : ℕ := ofLeBytes ((src.drop (r + 4)).take 4)

/-- The message start bytes and a size in range. -/
structure HeaderAt (src : Bytes) (r : ℕ) : Prop where
  length_le : r + 8 ≤ src.length
  start : (src.drop r).take 4 = messageStart network
  size_ge : 80 ≤ sizeAt src r
  size_le : sizeAt src r ≤ MAX_BLOCK_SIZE

/-- A well-formed record : a header, and a block that decodes within the size, up to a position. -/
structure RecordAt (src : Bytes) (r : ℕ) (block : CBlock) (last : ℕ) : Prop extends
    HeaderAt network src r where
  decodes : ∃ rest, CBlock.unserialize ((src.drop (r + 8)).take (sizeAt src r)) = .ok (block, rest) ∧
    last + rest.length = min (r + 8 + sizeAt src r) src.length

/-- How decoding ends at a header. -/
def decodingAt (src : Bytes) (r : ℕ) : ReadProg.Ending CBlock :=
  Reading.block.ending src (r + 8 + sizeAt src r) 999992 (r + 8)

variable {network process} {src : Bytes} {r last : ℕ} {block : CBlock}

theorem HeaderAt.decodingAt_eq_ok_iff (h : HeaderAt network src r) :
    decodingAt src r = .ok block last ↔ RecordAt network src r block last := by
  have hsize := h.size_le
  rw [MAX_BLOCK_SIZE] at hsize
  rw [decodingAt, Reading.ending_block_eq_ok_iff (by omega) h.length_le (by omega), ReadProg.upTo,
    Nat.add_sub_cancel_left]
  exact ⟨fun hdecodes => ⟨h, hdecodes⟩, fun hrecord => hrecord.decodes⟩

theorem RecordAt.lt_last (h : RecordAt network src r block last) :
    r + 8 ≤ last ∧ last ≤ src.length := by
  have hdecode := h.toHeaderAt.decodingAt_eq_ok_iff.mpr h
  have hle := ReadProg.ending_ok_le (Nat.le_add_right _ _) h.length_le hdecode
  exact ⟨hle.1, hle.2.2⟩

theorem RecordAt.unique (h : RecordAt network src r block last) {block' : CBlock} {last' : ℕ}
    (h' : RecordAt network src r block' last') : block = block' ∧ last = last' := by
  have hdecode := h.toHeaderAt.decodingAt_eq_ok_iff.mpr h
  rw [h'.toHeaderAt.decodingAt_eq_ok_iff.mpr h'] at hdecode
  cases hdecode
  exact ⟨rfl, rfl⟩

/-! ## The search over the bytes -/

/-- What the loop does at a start byte : the file ends, or it reads to a position without a block, or
it reads a block to a position. -/
inductive Round
  | ends
  | seeks (nReadPos : ℕ)
  | finds (block : CBlock) (last : ℕ)

variable (network) in
def roundAt (src : Bytes) (r : ℕ) : Round :=
  if src.length < r + 4 then .ends
  else if (src.drop r).take 4 ≠ messageStart network then .seeks (r + 4)
  else if src.length < r + 8 then .ends
  else if sizeAt src r < 80 ∨ sizeAt src r > MAX_BLOCK_SIZE then .seeks (r + 8)
  else
    match decodingAt src r with
    | .ok block last => .finds block last
    | .failed nReadPos => .seeks nReadPos
    | .endOfSource => .ends

/-- Where the search goes on from a reading position, with somewhere to rewind to : nowhere from the
end of the file, and no further back than the buffer allows. -/
def goesOn (src : Bytes) (nReadPos nRewind : ℕ) : Option ℕ :=
  if nReadPos = src.length ∧ ¬CBufferedFile.IsFill src.length then none
  else some (max nRewind (min src.length (CBufferedFile.fillEnd nReadPos) - 1000008))

/-- A `CValidationState` with an error. -/
def ProcessReport.fError : ProcessReport → Bool
  | .returned _ fError => fError
  | .threw => false

variable (network) in
/-- The first start byte from a position on. -/
def startFrom (src : Bytes) (p : ℕ) : Option ℕ :=
  CBufferedFile.firstByte src ((messageStart network).headD 0) p

variable (network) in
/-- The block found by the round from a position. -/
def foundFrom (src : Bytes) (p : ℕ) : List (ℕ × CBlock) :=
  match startFrom network src p with
  | none => []
  | some r =>
    match roundAt network src r with
    | .finds block _ => [(r + 8, block)]
    | _ => []

variable (network process) in
/-- Where the round from a position resumes the search. -/
def resumeFrom (src : Bytes) (p : ℕ) : Option ℕ :=
  match startFrom network src p with
  | none => none
  | some r =>
    match roundAt network src r with
    | .ends => none
    | .seeks nReadPos => goesOn src nReadPos (r + 1)
    | .finds block last => if (process (r + 8) block).fError then none else goesOn src last last

variable (network process) in
/-- The blocks that a search from a position finds. -/
inductive Scans (src : Bytes) : ℕ → List (ℕ × CBlock) → Prop
  | stop {p : ℕ} (h : resumeFrom network process src p = none) : Scans src p (foundFrom network src p)
  | next {p p' : ℕ} {found : List (ℕ × CBlock)} (h : resumeFrom network process src p = some p')
      (hrest : Scans src p' found) : Scans src p (foundFrom network src p ++ found)

theorem HeaderAt.roundAt_eq (h : HeaderAt network src r) :
    roundAt network src r =
      match decodingAt src r with
      | .ok block last => .finds block last
      | .failed nReadPos => .seeks nReadPos
      | .endOfSource => .ends := by
  have hlen := h.length_le
  rw [roundAt, if_neg (by omega), if_neg (not_not.mpr h.start), if_neg (by omega),
    if_neg (not_or.mpr ⟨h.size_ge.not_gt, h.size_le.not_gt⟩)]

theorem goesOn_eq_some_le {x t p : ℕ} (h : goesOn src x t = some p) : t ≤ p := by
  rw [goesOn] at h
  split at h
  · cases h
  · cases h
    exact le_max_left _ _

theorem headerAt_of_roundAt (hlen : ¬src.length < r + 8) (hstart : (src.drop r).take 4 = messageStart network)
    (hsize : ¬(sizeAt src r < 80 ∨ sizeAt src r > MAX_BLOCK_SIZE)) : HeaderAt network src r := by
  rw [not_or, not_lt, not_lt] at hsize
  exact ⟨by omega, hstart, hsize.1, hsize.2⟩

/-- A block found is a record. -/
theorem roundAt_finds {block : CBlock} {last : ℕ} (h : roundAt network src r = .finds block last) :
    RecordAt network src r block last := by
  have hround := h
  rw [roundAt] at hround
  split at hround
  · cases hround
  split at hround
  · cases hround
  split at hround
  · cases hround
  split at hround
  · cases hround
  rename_i hstart hlen hsize
  have hheader := headerAt_of_roundAt hlen (not_not.mp hstart) hsize
  rw [hheader.roundAt_eq] at h
  cases hdecode : decodingAt src r with
  | ok b l =>
    rw [hdecode] at h
    cases h
    exact hheader.decodingAt_eq_ok_iff.mp hdecode
  | failed x =>
    rw [hdecode] at h
    cases h
  | endOfSource =>
    rw [hdecode] at h
    cases h

theorem startFrom_spec {p : ℕ} (h : startFrom network src p = some r) : p ≤ r ∧ r < src.length :=
  CBufferedFile.firstByte_eq_some h

variable (process) in
theorem mem_foundFrom {p pos : ℕ} {block : CBlock} (h : (pos, block) ∈ foundFrom network src p) :
    ∃ r last, pos = r + 8 ∧ p ≤ r ∧ RecordAt network src r block last ∧
      ∀ p', resumeFrom network process src p = some p' → last ≤ p' := by
  rw [foundFrom] at h
  rw [resumeFrom]
  cases hstart : startFrom network src p with
  | none =>
    rw [hstart] at h
    cases h
  | some r =>
    rw [hstart] at h
    dsimp only at h ⊢
    cases hround : roundAt network src r with
    | ends =>
      rw [hround] at h
      cases h
    | seeks x =>
      rw [hround] at h
      cases h
    | finds b last =>
      rw [hround] at h
      obtain ⟨rfl, rfl⟩ := Prod.mk.inj (List.mem_singleton.mp h)
      refine ⟨r, last, rfl, (startFrom_spec hstart).1, roundAt_finds hround, fun p' hp' => ?_⟩
      dsimp only at hp'
      split at hp'
      · cases hp'
      · exact goesOn_eq_some_le hp'

/-- The search moves on. -/
theorem resumeFrom_lt {p p' : ℕ} (h : resumeFrom network process src p = some p') :
    p < p' ∧ p < src.length := by
  rw [resumeFrom] at h
  cases hstart : startFrom network src p with
  | none =>
    rw [hstart] at h
    cases h
  | some r =>
    obtain ⟨hle, hlt⟩ := startFrom_spec hstart
    rw [hstart] at h
    dsimp only at h
    cases hround : roundAt network src r with
    | ends =>
      rw [hround] at h
      cases h
    | seeks x =>
      rw [hround] at h
      have hp' := goesOn_eq_some_le h
      omega
    | finds b last =>
      rw [hround] at h
      dsimp only at h
      split at h
      · cases h
      · have hp' := goesOn_eq_some_le h
        have hlast := (roundAt_finds hround).lt_last
        omega

variable (network process) in
/-- Every search ends. -/
theorem exists_scans (src : Bytes) (p : ℕ) : ∃ found, Scans network process src p found := by
  cases h : resumeFrom network process src p with
  | none => exact ⟨_, .stop h⟩
  | some p' =>
    obtain ⟨hlt, hlen⟩ := resumeFrom_lt h
    obtain ⟨found, hrest⟩ := exists_scans src p'
    exact ⟨_, .next h hrest⟩
termination_by src.length - p

/-! ## The loop searches -/

theorem messageStart_length (network : Network) : (messageStart network).length = 4 := by
  cases network <;> rfl

/-- What `locateHeader` comes to from a reading position. -/
inductive Located (network : Network) (src : Bytes) (f : CBufferedFile) :
    Except String (ℕ × Option ℕ) × CBufferedFile → Prop
  | none {e f'} (h : startFrom network src f.nReadPos = none) : Located network src f (.error e, f')
  | ends {r e f'} (h : startFrom network src f.nReadPos = some r)
      (hround : roundAt network src r = .ends) : Located network src f (.error e, f')
  | seeks {r x f'} (h : startFrom network src f.nReadPos = some r)
      (hround : roundAt network src r = .seeks x) (hx : r + 1 ≤ x)
      (hto : CBufferedFile.ReadTo src f x f') : Located network src f (.ok (r + 1, .none), f')
  | header {r f'} (h : startFrom network src f.nReadPos = some r) (hheader : HeaderAt network src r)
      (hto : CBufferedFile.ReadTo src f (r + 8) f') :
      Located network src f (.ok (r + 1, some (sizeAt src r)), f')

variable (network) in
open CBufferedFile in
theorem locateHeader_spec {f : CBufferedFile} (h : Buffered src f) (hlimit : f.nReadLimit = none) :
    ∃ res, locateHeader network f = some res ∧ Located network src f res := by
  have hfind := h.findByte ((messageStart network).headD 0)
  rw [locateHeader]
  cases hstart : startFrom network src f.nReadPos with
  | none =>
    rw [show firstByte src _ f.nReadPos = none from hstart] at hfind
    obtain ⟨e, f', hcall, -⟩ := hfind
    exact ⟨_, bind_error hcall, .none hstart⟩
  | some r =>
    rw [show firstByte src _ f.nReadPos = some r from hstart] at hfind
    obtain ⟨f₁, hcall, h₁, hpos₁, hlimit₁, hsrc₁, hge, hlt⟩ := hfind
    have hpos : getPos f₁ = some (.ok r, f₁) := by rw [getPos, hpos₁]
    rw [bind_ok hcall, bind_ok hpos]
    dsimp only
    have hround := roundAt.eq_def network src r
    -- the start bytes
    have hnolimit₁ : ¬f₁.nReadLimit.any (4 + f₁.nReadPos > ·) := by
      rw [hlimit₁, hlimit]
      exact Bool.false_ne_true
    obtain ⟨hok, herr⟩ := (h₁.read 4).1 hnolimit₁ (by omega)
    rw [hpos₁] at hok herr
    by_cases hlen₁ : src.length < r + 4
    · obtain ⟨e, f', hread, -⟩ := herr hlen₁
      rw [if_pos hlen₁] at hround
      exact ⟨_, bind_error hread, .ends hstart hround⟩
    obtain ⟨f₂, hread, hto₂⟩ := hok (by omega)
    have hto : ReadTo src f (r + 4) f₂ := by
      refine ⟨hto₂.buffered, hto₂.nReadPos_eq, hto₂.nReadLimit_eq.trans hlimit₁, ?_⟩
      rw [hto₂.nSrcPos_eq, hsrc₁, readTo_readTo (by omega)]
    rw [bind_ok hread]
    rw [if_neg hlen₁] at hround
    by_cases hbuf : (src.drop r).take 4 ≠ messageStart network
    · rw [if_pos hbuf] at hround ⊢
      exact ⟨_, rfl, .seeks hstart hround (by omega) hto⟩
    rw [if_neg hbuf] at hround ⊢
    -- the size
    have hnolimit₂ : ¬f₂.nReadLimit.any (4 + f₂.nReadPos > ·) := by
      rw [hto.nReadLimit_eq, hlimit]
      exact Bool.false_ne_true
    obtain ⟨hok, herr⟩ := (hto.buffered.read 4).1 hnolimit₂ (by omega)
    rw [hto.nReadPos_eq] at hok herr
    by_cases hlen₂ : src.length < r + 8
    · obtain ⟨e, f', hread, -⟩ := herr (by omega)
      rw [if_pos hlen₂] at hround
      exact ⟨_, bind_error hread, .ends hstart hround⟩
    obtain ⟨f₃, hread, hto₃⟩ := hok (by omega)
    have hto := hto.trans hto₃ (by omega)
    rw [bind_ok hread]
    rw [show ofLeBytes ((src.drop (r + 4)).take 4) = sizeAt src r from rfl]
    rw [if_neg hlen₂] at hround
    by_cases hsize : sizeAt src r < 80 ∨ sizeAt src r > MAX_BLOCK_SIZE
    · rw [if_pos hsize] at hround ⊢
      exact ⟨_, rfl, .seeks hstart hround (by omega) hto⟩
    · rw [if_neg hsize]
      exact ⟨_, rfl, .header hstart (headerAt_of_roundAt hlen₂ (not_not.mp hbuf) hsize) hto⟩

/-- The loop of `LoadExternalBlockFile` is about to go on from a position, or to end. -/
structure Ready (src : Bytes) (s : BlockImport) (next : Option ℕ) : Prop where
  buffered : CBufferedFile.Buffered src s.blkdat
  nRewind_le : s.nRewind ≤ s.blkdat.nSrcPos
  next_eq : next = if s.blkdat.eof then none else some (max s.nRewind (s.blkdat.nSrcPos - 1000008))

open CBufferedFile in
/-- After reading on from a position, to go back to a place between. -/
theorem Ready.of_read {f f' : CBufferedFile} {x t : ℕ} {s : BlockImport} (h : Buffered src f)
    (h' : Buffered src f') (hread : f'.nReadPos = x) (hpos : f'.nSrcPos = readTo src f.nSrcPos x)
    (hge : f.nReadPos ≤ t) (hle : t ≤ x) (hblkdat : s.blkdat = f') (hnRewind : s.nRewind = t) :
    Ready src s (goesOn src x t) := by
  have hx := h'.read_le
  have hsrc := h'.src_le
  have hnear := h.near
  rw [hread] at hx
  refine ⟨by rw [hblkdat]; exact h', by rw [hnRewind, hblkdat]; omega, ?_⟩
  have heof : s.blkdat.eof = true ↔ x = src.length ∧ ¬IsFill src.length := by
    rw [hblkdat, eof, Bool.and_eq_true, beq_iff_eq, hread, h'.feof_iff]
    constructor
    · rintro ⟨hx, hend, hfill⟩
      exact ⟨hx.trans hend, hfill⟩
    · rintro ⟨hx, hfill⟩
      exact ⟨by omega, by omega, hfill⟩
  rw [goesOn]
  by_cases hend : x = src.length ∧ ¬IsFill src.length
  · rw [if_pos hend, if_pos (heof.mpr hend)]
  · rw [if_neg hend, if_neg (fun hcase => hend (heof.mp hcase)), hblkdat, hnRewind, hpos]
    unfold readTo
    rw [Option.some.injEq]
    omega

variable (process) in
theorem handBlock_spec (nBlockPos : ℕ) (block : CBlock) (s : BlockImport) :
    (handBlock process nBlockPos block s).1.blkdat = s.blkdat ∧
      (handBlock process nBlockPos block s).1.nRewind = s.nRewind ∧
      (handBlock process nBlockPos block s).1.handed = s.handed ++ [(nBlockPos, block)] ∧
      (handBlock process nBlockPos block s).2 = !(process nBlockPos block).fError := by
  rw [handBlock]
  dsimp only
  cases process nBlockPos block <;> exact ⟨rfl, rfl, rfl, rfl⟩

theorem loadLoop_end {s : BlockImport} (h : (s.blkdat.good && !s.blkdat.eof) = false) (k : ℕ) :
    loadLoop network process 0 (k + 1) s = some s := by
  rw [loadLoop, if_neg]
  rw [h]
  exact Bool.false_ne_true

/-- The loop goes on with another state, or ends with it. -/
theorem Ready.goes_on {s s' : BlockImport} {next : Option ℕ} (h : Ready src s' next)
    (hstep : ∀ k, loadLoop network process 0 (k + 1) s = loadLoop network process 0 k s') :
    (∃ p', next = some p' ∧ Ready src s' (some p') ∧
        ∀ k, loadLoop network process 0 (k + 1) s = loadLoop network process 0 k s') ∨
      (next = none ∧ ∀ k, loadLoop network process 0 (k + 2) s = some s') := by
  cases next with
  | some p' => exact Or.inl ⟨p', rfl, h, hstep⟩
  | none =>
    refine Or.inr ⟨rfl, fun k => ?_⟩
    have heof : s'.blkdat.eof = true := by
      by_contra hneof
      have hnext := h.next_eq
      rw [if_neg hneof] at hnext
      cases hnext
    rw [hstep, loadLoop_end]
    rw [heof, Bool.not_true, Bool.and_false]

variable (network process) in
/-- A round of the loop is one of the search. -/
theorem loadLoop_round {s : BlockImport} {p : ℕ} (h : Ready src s (some p)) :
    ∃ s', s'.handed = s.handed ++ foundFrom network src p ∧
      ((∃ p', resumeFrom network process src p = some p' ∧ Ready src s' (some p') ∧
          ∀ k, loadLoop network process 0 (k + 1) s = loadLoop network process 0 k s') ∨
        (resumeFrom network process src p = none ∧
          ∀ k, loadLoop network process 0 (k + 2) s = some s')) := by
  obtain ⟨hbuf, hle, hnext⟩ := h
  have hneof : s.blkdat.eof = false := by
    rw [← Bool.not_eq_true]
    intro heof
    rw [if_pos heof] at hnext
    cases hnext
  rw [hneof, if_neg Bool.false_ne_true, Option.some.injEq] at hnext
  have hgoes : (s.blkdat.good && !s.blkdat.eof) = true := by
    rw [CBufferedFile.good, hbuf.failbit_eq, hneof]
    rfl
  -- the file at the position, without a limit
  obtain ⟨hset, hpos, -, -⟩ := hbuf.setPos hle
  rw [← hnext] at hpos
  obtain ⟨f, hf⟩ : ∃ f, f = (s.blkdat.setPos s.nRewind).setLimit none := ⟨_, rfl⟩
  have hbuf' : CBufferedFile.Buffered src f := by
    rw [hf]
    exact hset.setLimit none
  have hlimit : f.nReadLimit = none := by
    rw [hf, CBufferedFile.setLimit, if_neg]
    exact Bool.false_ne_true
  have hread : f.nReadPos = p := by
    rw [hf, CBufferedFile.setLimit, if_neg, hpos]
    exact Bool.false_ne_true
  obtain ⟨res, hlocate, hlocated⟩ := locateHeader_spec network hbuf' hlimit
  have hround : ∀ k, loadLoop network process 0 (k + 1) s = _ := fun k => by
    rw [loadLoop, if_pos hgoes, ← hf, hlocate]
  cases hlocated with
  | @none e f' hstart =>
    rw [hread] at hstart
    refine ⟨{ s with blkdat := f' }, ?_, Or.inr ⟨?_, fun k => hround (k + 1)⟩⟩
    · rw [foundFrom, hstart, List.append_nil]
    · rw [resumeFrom, hstart]
  | @ends r e f' hstart hends =>
    rw [hread] at hstart
    refine ⟨{ s with blkdat := f' }, ?_, Or.inr ⟨?_, fun k => hround (k + 1)⟩⟩
    · rw [foundFrom, hstart]
      dsimp only
      rw [hends, List.append_nil]
    · rw [resumeFrom, hstart]
      dsimp only
      rw [hends]
  | @seeks r x f' hstart hseeks hx hto =>
    rw [hread] at hstart
    have hle := (startFrom_spec hstart).1
    refine ⟨{ s with blkdat := f', nRewind := r + 1 }, ?_, ?_⟩
    · rw [foundFrom, hstart]
      dsimp only
      rw [hseeks, List.append_nil]
    · rw [resumeFrom, hstart]
      dsimp only
      rw [hseeks]
      exact (Ready.of_read hbuf' hto.buffered hto.nReadPos_eq hto.nSrcPos_eq (by omega) hx rfl
        rfl).goes_on hround
  | @header r f' hstart hheader hto =>
    rw [hread] at hstart
    have hle := (startFrom_spec hstart).1
    -- the block is decoded within the limit
    obtain ⟨f₁, hf₁⟩ : ∃ f₁, f'.setLimit (some (f'.nReadPos + sizeAt src r)) = f₁ := ⟨_, rfl⟩
    have hbuf₁ : CBufferedFile.Buffered src f₁ := by
      rw [← hf₁]
      exact hto.buffered.setLimit _
    have hset₁ : f₁ = { f' with nReadLimit := some (f'.nReadPos + sizeAt src r) } := by
      rw [← hf₁, CBufferedFile.setLimit, if_neg]
      rw [Option.any_some, decide_eq_true_eq]
      omega
    have hread₁ : f₁.nReadPos = r + 8 := by
      rw [hset₁]
      exact hto.nReadPos_eq
    have hsrc₁ : f₁.nSrcPos = CBufferedFile.readTo src f.nSrcPos (r + 8) := by
      rw [hset₁]
      exact hto.nSrcPos_eq
    have hlimit₁ : f₁.nReadLimit = some (r + 8 + sizeAt src r) := by
      rw [hset₁, ← hto.nReadPos_eq]
    have hrun := hbuf₁.runProgram (p := Reading.block) hlimit₁
    rw [hread₁, ← decodingAt] at hrun
    dsimp only at hround
    rw [hf₁, hto.nReadPos_eq] at hround
    have hroundAt := hheader.roundAt_eq
    rw [foundFrom, resumeFrom, hstart]
    dsimp only
    rw [hroundAt]
    cases hdecode : decodingAt src r with
    | ok block last =>
      rw [hdecode] at hrun
      obtain ⟨f₂, hcall, hto₂⟩ := hrun
      have hlast := (hheader.decodingAt_eq_ok_iff.mp hdecode).lt_last
      rw [hcall] at hround
      dsimp only at hround
      obtain ⟨s₂, more, hhand⟩ : ∃ s₂ more, handBlock process (r + 8) block
          { s with blkdat := f₂, nRewind := f₂.nReadPos } = (s₂, more) := ⟨_, _, rfl⟩
      obtain ⟨hblkdat, hnRewind, hhanded, hmore⟩ :=
        handBlock_spec process (r + 8) block { s with blkdat := f₂, nRewind := f₂.nReadPos }
      rw [hhand] at hround hblkdat hnRewind hhanded hmore
      have hloop : ∀ k, loadLoop network process 0 (k + 1) s =
          if more then loadLoop network process 0 k s₂ else some s₂ := fun k => by
        rw [hround, if_pos (Nat.zero_le _)]
        cases more <;> rfl
      refine ⟨s₂, hhanded, ?_⟩
      dsimp only at hblkdat hnRewind hmore ⊢
      cases herr : (process (r + 8) block).fError with
      | true =>
        rw [herr, Bool.not_true] at hmore
        refine Or.inr ⟨rfl, fun k => ?_⟩
        rw [hloop, hmore]
        rfl
      | false =>
        rw [herr, Bool.not_false] at hmore
        rw [if_neg Bool.false_ne_true]
        have hready := Ready.of_read hbuf' hto₂.buffered hto₂.nReadPos_eq
          (hto₂.nSrcPos_eq.trans (by rw [hsrc₁, CBufferedFile.readTo_readTo (by omega)])) (by omega)
          le_rfl hblkdat (hnRewind.trans hto₂.nReadPos_eq)
        refine hready.goes_on fun k => ?_
        rw [hloop, hmore, if_pos rfl]
    | failed x =>
      rw [hdecode] at hrun
      obtain ⟨e, f₂, hcall, hto₂⟩ := hrun
      have hx := ReadProg.ending_failed_le (Nat.le_add_right _ _) hheader.length_le hdecode
      rw [hcall] at hround
      have hready : Ready src { s with blkdat := f₂, nRewind := r + 1 } (goesOn src x (r + 1)) :=
        Ready.of_read hbuf' hto₂.buffered hto₂.nReadPos_eq
          (hto₂.nSrcPos_eq.trans (by rw [hsrc₁, CBufferedFile.readTo_readTo (by omega)])) (by omega)
          (by omega) rfl rfl
      exact ⟨{ s with blkdat := f₂, nRewind := r + 1 }, (List.append_nil _).symm, hready.goes_on hround⟩
    | endOfSource =>
      rw [hdecode] at hrun
      obtain ⟨e, f₂, hcall, hfail⟩ := hrun
      rw [hcall] at hround
      refine ⟨{ s with blkdat := f₂, nRewind := r + 1 }, (List.append_nil _).symm,
        Or.inr ⟨rfl, fun k => ?_⟩⟩
      refine (hround (k + 1)).trans (loadLoop_end ?_ k)
      rw [CBufferedFile.good, hfail]
      rfl

/-- The loop hands over what the search finds. -/
theorem loadLoop_scans {p : ℕ} {found : List (ℕ × CBlock)} (hscan : Scans network process src p found) :
    ∀ {s : BlockImport}, Ready src s (some p) →
      ∃ n s', (∀ k, n ≤ k → loadLoop network process 0 k s = some s') ∧
        s'.handed = s.handed ++ found := by
  induction hscan with
  | @stop p hstop =>
    intro s h
    obtain ⟨s', hhanded, ⟨p', hresume, -⟩ | ⟨-, hloop⟩⟩ :=
      loadLoop_round network process h
    · rw [hstop] at hresume
      cases hresume
    · refine ⟨2, s', fun k hk => ?_, hhanded⟩
      rw [← Nat.sub_add_cancel hk]
      exact hloop _
  | @next p p' found hnext hrest ih =>
    intro s h
    obtain ⟨s', hhanded, ⟨p'', hresume, hready, hloop⟩ | ⟨hstop, -⟩⟩ :=
      loadLoop_round network process h
    · rw [hnext] at hresume
      cases hresume
      obtain ⟨n, s'', hrun, hhanded'⟩ := ih hready
      refine ⟨n + 1, s'', fun k hk => ?_, by rw [hhanded', hhanded, List.append_assoc]⟩
      obtain ⟨k, rfl⟩ : ∃ k', k = k' + 1 := ⟨k - 1, by omega⟩
      rw [hloop, hrun k (by omega)]
    · rw [hnext] at hstop
      cases hstop

/-- `LoadExternalBlockFile` ends, and hands over what the search from the beginning finds. -/
theorem loadExternalBlockFile_scans {found : List (ℕ × CBlock)}
    (hscan : Scans network process src 0 found) :
    ∃ n s, (∀ k, n ≤ k → loadExternalBlockFile network process k src none = some s) ∧
      s.handed = found := by
  have hready : Ready src ⟨CBufferedFile.new src 2000000 1000008, 0, 0, []⟩ (some 0) := by
    refine ⟨CBufferedFile.Buffered.new src, le_rfl, ?_⟩
    simp [CBufferedFile.eof, CBufferedFile.new]
  obtain ⟨n, s, hrun, hhanded⟩ := loadLoop_scans hscan hready
  exact ⟨n, s, hrun, hhanded⟩

/-! ## What a search finds -/

/-- No earlier record among some blocks reaches over a place. -/
def Outside (network : Network) (src : Bytes) (found : List (ℕ × CBlock)) (r : ℕ) : Prop :=
  ∀ r' block' last', RecordAt network src r' block' last' → (r' + 8, block') ∈ found → r' < r → last' ≤ r

/-- The records from a position on, outside the earlier ones found, are found. -/
def Complete (network : Network) (src : Bytes) (p : ℕ) (found : List (ℕ × CBlock)) : Prop :=
  ∀ r block last, RecordAt network src r block last → p ≤ r → Outside network src found r →
    (r + 8, block) ∈ found

variable (network process) in
/-- The round from a position resumes at or before any record that it does not find itself, nor
reaches over. -/
def Keeps (src : Bytes) (p : ℕ) : Prop :=
  ∀ r block last, RecordAt network src r block last → p ≤ r →
    Outside network src (foundFrom network src p) r → (r + 8, block) ∉ foundFrom network src p →
    ∃ p', resumeFrom network process src p = some p' ∧ p' ≤ r

/-- What a search finds lies behind where it begins, in order. -/
theorem Scans.ordered {p : ℕ} {found : List (ℕ × CBlock)} (h : Scans network process src p found) :
    (∀ e ∈ found, p + 8 ≤ e.1) ∧ (found.map Prod.fst).Pairwise (· < ·) := by
  have hhere : ∀ p, (foundFrom network src p).length ≤ 1 := by
    intro p
    rw [foundFrom]
    split
    · exact Nat.zero_le _
    · split
      · exact le_rfl
      · exact Nat.zero_le _
  have hsingle : ∀ p, ((foundFrom network src p).map Prod.fst).Pairwise (· < ·) := by
    intro p
    have hlen := hhere p
    generalize foundFrom network src p = here at hlen
    match here, hlen with
    | [], _ => exact List.Pairwise.nil
    | [e], _ => exact List.pairwise_singleton _ _
  induction h with
  | @stop p hstop =>
    refine ⟨fun e he => ?_, hsingle p⟩
    obtain ⟨r, last, hpos, hle, -⟩ := mem_foundFrom process he
    omega
  | @next p p' found hnext hrest ih =>
    obtain ⟨hbehind, hpair⟩ := ih
    have hlt := (resumeFrom_lt hnext).1
    constructor
    · intro e he
      rcases List.mem_append.mp he with he | he
      · obtain ⟨r, last, hpos, hle, -⟩ := mem_foundFrom process he
        omega
      · have hge := hbehind e he
        omega
    · rw [List.map_append, List.pairwise_append]
      refine ⟨hsingle p, hpair, ?_⟩
      intro a ha b hb
      obtain ⟨e, he, rfl⟩ := List.mem_map.mp ha
      obtain ⟨e', he', rfl⟩ := List.mem_map.mp hb
      obtain ⟨r, last, hpos, -, hrec, hlast⟩ := mem_foundFrom process he
      have hge := hbehind e' he'
      have hresume := hlast p' hnext
      have hrec := hrec.lt_last
      omega

/-- One round and the rest of the search. -/
theorem Scans.complete_next_iff {p p' : ℕ} {found : List (ℕ × CBlock)}
    (hnext : resumeFrom network process src p = some p') (hrest : Scans network process src p' found) :
    Complete network src p (foundFrom network src p ++ found) ↔
      Keeps network process src p ∧ Complete network src p' found := by
  have hbehind := hrest.ordered.1
  have hhere : ∀ {r' block' last' r}, RecordAt network src r' block' last' →
      (r' + 8, block') ∈ foundFrom network src p → p' ≤ r → last' ≤ r ∧ r' ≠ r := by
    intro r' block' last' r hrec hmem hle
    obtain ⟨r'', last'', hpos, -, hrec', hlast⟩ := mem_foundFrom process hmem
    obtain rfl : r' = r'' := by omega
    obtain ⟨-, rfl⟩ := hrec.unique hrec'
    have hresume := hlast p' hnext
    have hlt := hrec.lt_last
    omega
  constructor
  · intro hcomplete
    refine ⟨fun r block last hrec hle hout hnot => ⟨p', hnext, ?_⟩,
      fun r block last hrec hle hout => ?_⟩
    · by_contra hlt
      have hmem := hcomplete r block last hrec hle fun r' block' last' hrec' hmem hr' => by
        rcases List.mem_append.mp hmem with hmem | hmem
        · exact hout r' block' last' hrec' hmem hr'
        · have hge := hbehind _ hmem
          dsimp only at hge
          omega
      rcases List.mem_append.mp hmem with hmem | hmem
      · exact hnot hmem
      · have hge := hbehind _ hmem
        dsimp only at hge
        omega
    · have hlt := (resumeFrom_lt hnext).1
      have hmem := hcomplete r block last hrec (by omega) fun r' block' last' hrec' hmem hr' => by
        rcases List.mem_append.mp hmem with hmem | hmem
        · exact (hhere hrec' hmem hle).1
        · exact hout r' block' last' hrec' hmem hr'
      rcases List.mem_append.mp hmem with hmem | hmem
      · exact absurd rfl (hhere hrec hmem hle).2
      · exact hmem
  · rintro ⟨hkeeps, hcomplete⟩ r block last hrec hle hout
    rw [List.mem_append]
    by_cases hmem : (r + 8, block) ∈ foundFrom network src p
    · exact Or.inl hmem
    right
    obtain ⟨p'', hp'', hle'⟩ := hkeeps r block last hrec hle
      (fun r' block' last' hrec' hmem' => hout r' block' last' hrec' (List.mem_append_left _ hmem')) hmem
    rw [hnext] at hp''
    cases hp''
    exact hcomplete r block last hrec hle' fun r' block' last' hrec' hmem' =>
      hout r' block' last' hrec' (List.mem_append_right _ hmem')

variable (network process) in
/-- The rounds that follow each other. -/
abbrev Resumes (src : Bytes) (p p' : ℕ) : Prop := resumeFrom network process src p = some p'

/-- A search is complete when every round keeps the records behind it. -/
theorem Scans.complete_iff {p : ℕ} {found : List (ℕ × CBlock)} (h : Scans network process src p found) :
    Complete network src p found ↔
      ∀ q, Relation.ReflTransGen (Resumes network process src) p q → Keeps network process src q := by
  induction h with
  | @stop p hstop =>
    have hreach : ∀ q, Relation.ReflTransGen (Resumes network process src) p q → q = p := by
      intro q hq
      rcases Relation.ReflTransGen.cases_head hq with rfl | ⟨p', hp', -⟩
      · rfl
      · rw [Resumes, hstop] at hp'
        cases hp'
    constructor
    · intro hcomplete q hq r block last hrec hle hout hnot
      rw [hreach q hq] at hle hout hnot
      exact absurd (hcomplete r block last hrec hle hout) hnot
    · intro hkeeps r block last hrec hle hout
      by_contra hnot
      obtain ⟨p', hp', -⟩ := hkeeps p .refl r block last hrec hle hout hnot
      rw [hstop] at hp'
      cases hp'
  | @next p p' found hnext hrest ih =>
    rw [Scans.complete_next_iff hnext hrest, ih]
    constructor
    · rintro ⟨hhere, hbehind⟩ q hq
      rcases Relation.ReflTransGen.cases_head hq with rfl | ⟨p'', hp'', hq⟩
      · exact hhere
      · rw [Resumes, hnext] at hp''
        cases hp''
        exact hbehind q hq
    · intro hall
      exact ⟨hall p .refl, fun q hq => hall q (.head hnext hq)⟩

/-! ## Records that are lost -/

variable (network process) in
/-- The round at a header does not lose the record at a later place : a record there does not end
the import with an error of `ProcessBlock`, and where decoding fails it has not come to the end of
the file, nor has so much been read from the file that `SetPos` cannot go back. -/
def KeepsAt (src : Bytes) (r r' : ℕ) : Prop :=
  match decodingAt src r with
  | .ok block last => last ≤ r' → (process (r + 8) block).fError = false
  | .failed nReadPos => ¬(nReadPos = src.length ∧ ¬CBufferedFile.IsFill src.length) ∧
      min src.length (CBufferedFile.fillEnd nReadPos) ≤ r' + 1000008
  | .endOfSource => False

/-- A record begins with the first start byte. -/
theorem HeaderAt.startFrom (h : HeaderAt network src r) {p : ℕ} (hle : p ≤ r) :
    ∃ r₀ ≤ r, startFrom network src p = some r₀ := by
  refine CBufferedFile.firstByte_of_le ?_ hle
  have hhead := congrArg List.head? h.start
  rw [List.head?_take, if_neg (by omega), List.head?_drop] at hhead
  rw [hhead]
  cases network <;> rfl

theorem goesOn_le_iff {x t r : ℕ} :
    (∃ p', goesOn src x t = some p' ∧ p' ≤ r) ↔
      ¬(x = src.length ∧ ¬CBufferedFile.IsFill src.length) ∧
        max t (min src.length (CBufferedFile.fillEnd x) - 1000008) ≤ r := by
  rw [goesOn]
  by_cases hend : x = src.length ∧ ¬CBufferedFile.IsFill src.length
  · rw [if_pos hend]
    exact iff_of_false nofun fun hcase => hcase.1 hend
  · rw [if_neg hend]
    simp only [Option.some.injEq, exists_eq_left', hend, not_false_eq_true, true_and]


/-- Behind start bytes without a header no record is lost. -/
theorem resumeFrom_of_not_header {p r' last' : ℕ} {block' : CBlock} (hstart : startFrom network src p = some r)
    (hnot : ¬HeaderAt network src r) (hrec : RecordAt network src r' block' last') (hle : r ≤ r') :
    ∃ p', resumeFrom network process src p = some p' ∧ p' ≤ r' := by
  have hlen := hrec.length_le
  have hne : r ≠ r' := by
    rintro rfl
    exact hnot hrec.toHeaderAt
  have hnear : ∀ x, x ≤ r + 8 → ∃ p', goesOn src x (r + 1) = some p' ∧ p' ≤ r' := by
    intro x hx
    rw [goesOn_le_iff]
    have hfill := CBufferedFile.fillEnd_le_add x
    exact ⟨fun hcase => by omega, by omega⟩
  rw [resumeFrom, hstart]
  dsimp only
  rw [roundAt, if_neg (by omega)]
  by_cases hbuf : (src.drop r).take 4 ≠ messageStart network
  · rw [if_pos hbuf]
    exact hnear (r + 4) (by omega)
  · rw [if_neg hbuf, if_neg (by omega), if_pos]
    · exact hnear (r + 8) le_rfl
    · by_contra hsize
      exact hnot (headerAt_of_roundAt (by omega) (not_not.mp hbuf) hsize)

/-- A round keeps the records behind it when it keeps each of them at its header. -/
theorem keeps_iff {p : ℕ} : Keeps network process src p ↔
    ∀ r, startFrom network src p = some r → HeaderAt network src r →
      ∀ r' block' last', RecordAt network src r' block' last' → r < r' → KeepsAt process src r r' := by
  cases hstart : startFrom network src p with
  | none =>
    refine iff_of_true ?_ nofun
    intro r block last hrec hle
    obtain ⟨r₀, -, hsome⟩ := hrec.toHeaderAt.startFrom hle
    rw [hstart] at hsome
    cases hsome
  | some r =>
    have hfirst : ∀ {r' block' last'}, RecordAt network src r' block' last' → p ≤ r' → r ≤ r' := by
      intro r' block' last' hrec hle
      obtain ⟨r₀, hle', hsome⟩ := hrec.toHeaderAt.startFrom hle
      rw [hstart] at hsome
      cases hsome
      exact hle'
    have hp := (startFrom_spec hstart).1
    by_cases hheader : HeaderAt network src r
    swap
    · refine iff_of_true ?_ fun r₀ hr₀ hheader₀ => ?_
      · intro r' block' last' hrec hle _ _
        exact resumeFrom_of_not_header hstart hheader hrec (hfirst hrec hle)
      · cases hr₀
        exact absurd hheader₀ hheader
    have hround := hheader.roundAt_eq
    have hfound : foundFrom network src p = match roundAt network src r with
        | .finds block _ => [(r + 8, block)]
        | _ => [] := by
      rw [foundFrom, hstart]
    have hresume : resumeFrom network process src p = match roundAt network src r with
        | .ends => none
        | .seeks nReadPos => goesOn src nReadPos (r + 1)
        | .finds block last => if (process (r + 8) block).fError then none else goesOn src last last := by
      rw [resumeFrom, hstart]
    unfold Keeps KeepsAt
    rw [hround] at hfound hresume
    simp only [Option.some.injEq, forall_eq', hheader, forall_true_left]
    rw [hfound, hresume]
    -- a record behind the start bytes, which are none themselves
    have hother : (∀ block last, decodingAt src r ≠ .ok block last) →
        ∀ {r' block' last'}, RecordAt network src r' block' last' → p ≤ r' → r < r' := by
      intro hno r' block' last' hrec hle
      refine lt_of_le_of_ne (hfirst hrec hle) ?_
      rintro rfl
      exact hno _ _ (hheader.decodingAt_eq_ok_iff.mpr hrec)
    cases hdecode : decodingAt src r with
    | endOfSource =>
      rw [hdecode] at hother
      constructor
      · intro hkeeps r' block' last' hrec hlt
        obtain ⟨p', hp', -⟩ := hkeeps r' block' last' hrec (by omega) nofun nofun
        cases hp'
      · intro hnone r' block' last' hrec hle
        exact (hnone r' block' last' hrec (hother nofun hrec hle)).elim
    | failed x =>
      rw [hdecode] at hother
      constructor
      · intro hkeeps r' block' last' hrec hlt
        obtain ⟨hend, hmax⟩ := goesOn_le_iff.mp (hkeeps r' block' last' hrec (by omega) nofun nofun)
        exact ⟨hend, by omega⟩
      · intro hsome r' block' last' hrec hle _ _
        have hlt := hother nofun hrec hle
        obtain ⟨hend, hnear⟩ := hsome r' block' last' hrec hlt
        exact goesOn_le_iff.mpr ⟨hend, by omega⟩
    | ok block last =>
      have hhere := hheader.decodingAt_eq_ok_iff.mp hdecode
      have hgoes : ∀ {r' block' last'}, RecordAt network src r' block' last' → last ≤ r' →
          ∃ p', goesOn src last last = some p' ∧ p' ≤ r' := by
        intro r' block' last' hrec hle
        have hlen := hrec.length_le
        have hfill := CBufferedFile.fillEnd_le_add last
        exact goesOn_le_iff.mpr ⟨fun hcase => by omega, by omega⟩
      dsimp only
      constructor
      · intro hkeeps r' block' last' hrec hlt hle
        have hout : Outside network src [(r + 8, block)] r' := by
          intro r'' block'' last'' hrec'' hmem _
          obtain ⟨hpos, rfl⟩ := Prod.mk.inj (List.mem_singleton.mp hmem)
          obtain rfl : r'' = r := by omega
          rw [(hrec''.unique hhere).2]
          exact hle
        have hnot : (r' + 8, block') ∉ [(r + 8, block)] := by
          intro hmem
          have hpos := (Prod.mk.inj (List.mem_singleton.mp hmem)).1
          omega
        obtain ⟨p', hp', -⟩ := hkeeps r' block' last' hrec (by omega) hout hnot
        rw [← Bool.not_eq_true]
        intro herr
        rw [if_pos herr] at hp'
        cases hp'
      · intro hkeeps r' block' last' hrec hle hout hnot
        have hne : r ≠ r' := by
          rintro rfl
          rw [(hrec.unique hhere).1] at hnot
          exact hnot (List.mem_singleton_self _)
        have hlt : r < r' := lt_of_le_of_ne (hfirst hrec hle) hne
        have hlast : last ≤ r' := hout r block last hhere (List.mem_singleton_self _) hlt
        rw [hkeeps r' block' last' hrec hlt hlast, if_neg Bool.false_ne_true]
        exact hgoes hrec hlast

variable (network process) in
/-- Every well-formed record whose first byte does not lie in an earlier one handed over is handed to
`ProcessBlock`, once and in the order of the file, and the import ends. -/
def ImportsEveryRecord (src : Bytes) : Prop :=
  ∃ n s, (∀ k, n ≤ k → loadExternalBlockFile network process k src none = some s) ∧
    (s.handed.map Prod.fst).Pairwise (· < ·) ∧
    ∀ r block last, RecordAt network src r block last → Outside network src s.handed r →
      (r + 8, block) ∈ s.handed

/-- The import hands over every such record of a file exactly where no header that the search comes
to loses one behind it. -/
theorem importsEveryRecord_iff : ImportsEveryRecord network process src ↔
    ∀ p r, Relation.ReflTransGen (Resumes network process src) 0 p → startFrom network src p = some r →
      HeaderAt network src r → ∀ r' block' last', RecordAt network src r' block' last' → r < r' →
        KeepsAt process src r r' := by
  obtain ⟨found, hscan⟩ := exists_scans network process src 0
  obtain ⟨n, s, hrun, hhanded⟩ := loadExternalBlockFile_scans hscan
  have hcomplete : ImportsEveryRecord network process src ↔ Complete network src 0 found := by
    constructor
    · rintro ⟨n', s', hrun', -, hall⟩ r block last hrec - hout
      have hs := (hrun' (max n n') (le_max_right _ _)).symm.trans (hrun _ (le_max_left _ _))
      cases hs
      rw [← hhanded] at hout ⊢
      exact hall r block last hrec hout
    · intro hall
      refine ⟨n, s, hrun, ?_, fun r block last hrec hout => ?_⟩
      · rw [hhanded]
        exact hscan.ordered.2
      · rw [hhanded] at hout ⊢
        exact hall r block last hrec (Nat.zero_le _) hout
  rw [hcomplete, hscan.complete_iff]
  constructor
  · intro hkeeps p r hp
    exact keeps_iff.mp (hkeeps p hp) r
  · intro hkeeps p hp
    exact keeps_iff.mpr fun r => hkeeps p r hp

/-- A block without transactions. -/
def sampleEmptyBlock : CBlock where
  nVersion := 1
  hashPrevBlock := 0
  hashMerkleRoot := 0
  nTime := 0
  nBits := 1
  nNonce := 0
  vtx := []

/-- The start bytes and the size of a record that was never written, and a whole record. -/
def sampleBlockFile : Bytes :=
  messageStart .regTest ++ leBytes 4 200 ++
    (messageStart .regTest ++ leBytes 4 81 ++ sampleEmptyBlock.serialize)

/-- Decoding at the first start bytes comes to the end of the file, and the import ends. -/
theorem sampleBlockFile_lost :
    ¬ImportsEveryRecord .regTest (fun _ _ => .returned true false) sampleBlockFile := by
  have hstop : resumeFrom .regTest (fun _ _ => .returned true false) sampleBlockFile 0 = none := by
    decide
  have hfound : foundFrom .regTest sampleBlockFile 0 = [] := by decide
  have hscan := Scans.stop hstop
  rw [hfound] at hscan
  have hrecord : RecordAt .regTest sampleBlockFile 8 sampleEmptyBlock 97 := by
    refine ⟨⟨by decide, by decide, by decide, by decide⟩, [], ?_, by decide⟩
    have hread := CBlock.reads (show sampleEmptyBlock.serialize.length ≤ MAX_SIZE by decide) []
    rw [List.append_nil] at hread
    rw [← hread]
    rfl
  rintro ⟨n, s, hrun, -, hall⟩
  obtain ⟨n', s', hrun', hhanded⟩ := loadExternalBlockFile_scans hscan
  have hs := (hrun (max n n') (le_max_left _ _)).symm.trans (hrun' _ (le_max_right _ _))
  cases hs
  rw [hhanded] at hall
  have hmem := hall 8 sampleEmptyBlock 97 hrecord nofun
  cases hmem

end Ticoin
